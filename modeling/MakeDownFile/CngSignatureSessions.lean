import MakeDownFile.CngSignatureContext
import MakeDownFile.ObjectRecords

/-! # Sessions of several signature contexts

Contexts come from newctx and dupctx and are then used in any order. What is recorded of a
context starts with it, changes with the calls on it and goes along into its copies. -/
namespace CngSignatureSessions

open CngWorld
open CngKeymgmt
open CngSignature
open CngSignatureRuns
open CngSignatureContext
open TraceRuns
open ObjectRecords

inductive SessionCall where
  | newctx (malloc : Bool) (provctx : Option Addr) (propq : Option String)
  | call (c : Addr) (e : CtxCall)
  deriving DecidableEq, Repr

def callSession : SessionCall → World → Option (Reply × World)
  | .newctx malloc provctx propq, w =>
    some (.pointer (cngSignatureNewctx malloc provctx propq w).1,
      (cngSignatureNewctx malloc provctx propq w).2)
  | .call c e, w => callCtx c e w

def contextEvent : SessionCall × Reply → Event Addr (CtxCall × Reply)
  | (.newctx _ _ _, .pointer (some d)) => .made d
  | (.newctx _ _ _, _) => .other
  | (.call c (.dup _), .pointer (some d)) => .copied c d
  | (.call _ (.dup _), _) => .other
  | (.call c e, r) => .acted c (e, r)

abbrev Seen := SignatureCtx × Option HashObj

def seen (w : World) (c : Addr) : Option Seen :=
  (w.sigctx c).map fun ctx => (ctx, ctx.hashHandle.bind w.hashes)

def Done (w w' : World) : Event Addr (CtxCall × Reply) → Prop
  | .made d => ∃ provctx propq, d = w.next ∧ w' = w.addCtx ⟨provctx, propq, none, none, none, 0, 0⟩
  | .copied c d => ∃ o, cngSignatureDupctx o c w = some (some d, w')
  | .acted c a => (∀ o, a.1 ≠ .dup o) ∧ callCtx c a.1 w = some (a.2, w')
  | .other => w' = w ∨ ∃ o c, cngSignatureDupctx o c w = some (none, w')

/-- What a call other than a duplication makes of its context and the hash behind it. -/
def Effect (w : World) (ctx : SignatureCtx) (b : Seen) : CtxCall → Reply → Prop
  | .init o mdname provkey, r =>
    (∃ alg, createdHash o mdname = some alg ∧ r = .ret 1 ∧ b = ({ ctx with
        key := provkey, algIdentifier := some alg, hashHandle := some w.next },
        some ⟨alg, [], false⟩)) ∨
      (createdHash o mdname = none ∧ r = .ret 0 ∧ b = ({ ctx with
        key := provkey, algIdentifier := algIdentifierAfter o mdname ctx },
        ctx.hashHandle.bind w.hashes))
  | .setParams _ _, _ => ∃ flags saltLen, b = ({ ctx with
      signHashFlags := flags, pssSaltLen := saltLen }, ctx.hashHandle.bind w.hashes)
  | _, _ => b.1 = ctx ∧ b.2.map HashObj.alg = (ctx.hashHandle.bind w.hashes).map HashObj.alg

section Frame

variable {c : Addr} {w w' : World}

theorem seen_of_ctx {ctx : SignatureCtx} (h : w.sigctx c = some ctx) :
    seen w c = some (ctx, ctx.hashHandle.bind w.hashes) := by
  rw [seen, h, Option.map_some]

theorem seen_eq (hctx : w'.sigctx c = w.sigctx c)
    (hhash : ∀ x b, w.sigctx c = some x → x.hashHandle = some b → w'.hashes b = w.hashes b) :
    seen w' c = seen w c := by
  unfold seen
  rw [hctx]
  cases hc : w.sigctx c with
  | none => rfl
  | some x =>
    cases hb : x.hashHandle with
    | none => simp [hb]
    | some b => simp [hb, hhash x b hc hb]

theorem session_done {x : SessionCall} {r : Reply} (h : callSession x w = some (r, w')) :
    Done w w' (contextEvent (x, r)) := by
  cases x with
  | newctx malloc provctx propq =>
    cases h
    unfold cngSignatureNewctx
    split
    · exact ⟨provctx, propq, rfl, rfl⟩
    · exact Or.inl rfl
  | call c e =>
    have hcall : callCtx c e w = some (r, w') := h
    cases e with
    | dup o =>
      obtain ⟨p, rfl, hcopy⟩ := call_ctx_cases hcall
      cases p with
      | none => exact Or.inr ⟨o, c, hcopy⟩
      | some d => exact ⟨o, hcopy⟩
    | _ =>
      refine ⟨?_, hcall⟩
      intro o ho
      cases ho

theorem done_frame (hw : WellFormed w) {x : Event Addr (CtxCall × Reply)} (h : Done w w' x)
    (hc : c < w.next) (htarget : x.target ≠ some c) : seen w' c = seen w c := by
  have hdup : ∀ o d p, cngSignatureDupctx o d w = some (p, w') → seen w' c = seen w c := by
    intro o d p hcopy
    obtain ⟨hsig, hhash, _, _⟩ := dupctx_frame hw hcopy
    exact seen_eq (hsig c hc) fun x b hx hb => hhash b (hw.hash_lt hx hb)
  cases x with
  | made d =>
    obtain ⟨provctx, propq, rfl, rfl⟩ := h
    exact seen_eq (Function.update_of_ne hc.ne _ _) fun _ _ _ _ => rfl
  | copied d d' =>
    obtain ⟨o, hcopy⟩ := h
    exact hdup o d _ hcopy
  | acted d a =>
    have hcd : c ≠ d := by
      rintro rfl
      exact htarget rfl
    obtain ⟨hsig, _, _, hhash⟩ := call_ctx_frame hw h.1 hcd h.2
    exact seen_eq hsig hhash
  | other =>
    rcases h with rfl | ⟨o, d, hcopy⟩
    · rfl
    · exact hdup o d _ hcopy

theorem done_next (hw : WellFormed w) {x : Event Addr (CtxCall × Reply)} (h : Done w w' x) :
    WellFormed w' ∧ w.next ≤ w'.next := by
  cases x with
  | made d =>
    obtain ⟨provctx, propq, rfl, rfl⟩ := h
    exact ⟨hw.addCtx rfl, Nat.le_succ _⟩
  | copied d d' =>
    obtain ⟨o, hcopy⟩ := h
    exact ⟨hw.dupctx hcopy, (dupctx_next hw hcopy).1⟩
  | acted d a => exact ⟨hw.callCtx h.2, call_ctx_next h.1 h.2⟩
  | other =>
    rcases h with rfl | ⟨o, d, hcopy⟩
    · exact ⟨hw, le_rfl⟩
    · exact ⟨hw.dupctx hcopy, (dupctx_next hw hcopy).1⟩

theorem call_effect {e : CtxCall} {r : Reply} {b : Seen} (hdup : ∀ o, e ≠ .dup o)
    (h : callCtx c e w = some (r, w')) (hb : seen w' c = some b) :
    ∃ ctx, w.sigctx c = some ctx ∧ Effect w ctx b e r := by
  obtain ⟨ctx', hctx', rfl⟩ := Option.map_eq_some_iff.mp hb
  have h' := call_ctx_cases h
  cases e with
  | init o mdname provkey =>
    obtain ⟨i, rfl, h'⟩ := h'
    obtain ⟨ctx, hctx, ⟨alg, hcreated, rfl, rfl⟩ | ⟨hnone, rfl, rfl⟩⟩ := init_cases h'
    · cases set_ctx_cases hctx'
      refine ⟨ctx, hctx, Or.inl ⟨alg, hcreated, rfl, ?_⟩⟩
      rw [Option.bind_some, World.setCtx_hashes, World.addHash_hashes, Function.update_self]
    · cases set_ctx_cases hctx'
      exact ⟨ctx, hctx, Or.inr ⟨hnone, rfl, rfl⟩⟩
  | update hashData data =>
    obtain ⟨i, rfl, h'⟩ := h'
    obtain ⟨ctx, hctx, ⟨_, rfl⟩ | ⟨a, obj, ha, hobj, _, _, rfl⟩⟩ := update_cases h'
    · obtain rfl : ctx = ctx' := Option.some.inj (hctx.symm.trans hctx')
      exact ⟨ctx, hctx, rfl, rfl⟩
    · obtain rfl : ctx = ctx' := Option.some.inj (hctx.symm.trans hctx')
      exact ⟨ctx, hctx, rfl, by simp [ha, hobj]⟩
  | setParams o params =>
    obtain ⟨i, rfl, h'⟩ := h'
    rcases set_params_frame h' with rfl | ⟨ctx, flags, saltLen, hctx, rfl⟩
    · exact ⟨ctx', hctx', _, _, rfl⟩
    · cases set_ctx_cases hctx'
      exact ⟨ctx, hctx, _, _, rfl⟩
  | final o sig siglen sigsize =>
    obtain ⟨f, rfl, h'⟩ := h'
    obtain ⟨ctx, hctx, ⟨rfl, _⟩ | ⟨a, obj, ha, hobj, _, _, rfl, _⟩⟩ := final_cases h'
    · obtain rfl : ctx = ctx' := Option.some.inj (hctx.symm.trans hctx')
      exact ⟨ctx, hctx, rfl, rfl⟩
    · obtain rfl : ctx = ctx' := Option.some.inj (hctx.symm.trans hctx')
      exact ⟨ctx, hctx, rfl, by simp [ha, hobj]⟩
  | dup o => exact absurd rfl (hdup o)
  | free =>
    obtain ⟨rfl, h'⟩ := h'
    rw [freectx_gone h'] at hctx'
    cases hctx'

/-- A returned copy is the original with its own key object and its own handle to an equal
hash, and has a key when the original has one. -/
theorem dupctx_copy (hw : WellFormed w) {o : DupctxCalls} {d : Addr} {b : Seen}
    (h : cngSignatureDupctx o c w = some (some d, w')) (hb : seen w' d = some b) :
    ∃ ctx obj key, w.sigctx c = some ctx ∧ ctx.hashHandle.bind w.hashes = some obj ∧
      (key = none ↔ ctx.key = none) ∧
      b = ({ ctx with key := key, hashHandle := some (w.next + 1) }, some obj) := by
  obtain ⟨ctx, hctx, ⟨hnone, _⟩ | ⟨obj, key, v, hobj, hdup, hcase⟩⟩ := dupctx_cases h
  · cases hnone
  rcases hcase with ⟨hnone, _⟩ | ⟨hsome, hkey, rfl⟩
  · cases hnone
  cases hsome
  let u := (w.addCtx ⟨ctx.provctx, ctx.propq, none, none, none, 0, 0⟩).addHash
    (.duplicateHash (w.next + 1)) obj
  have hu : Fresh u := (hw.fresh.addCtx _).addHash _ _
  have hv : v.hashes = u.hashes ∧ (ctx.key = none → key = none) := by
    rcases keymgmt_dup_cases hu hdup with ⟨hk, rfl | rfl⟩ | ⟨p, _, _, hp, _, _, _, rfl⟩
    · exact ⟨rfl, fun _ => hk⟩
    · exact ⟨rfl, fun _ => hk⟩
    · refine ⟨rfl, fun hn => ?_⟩
      rw [hn] at hp
      cases hp
  obtain ⟨a, ha, hobj, _, _⟩ := usable_hash hobj
  refine ⟨ctx, obj, key, hctx, by rw [ha, Option.bind_some, hobj], ⟨hkey, hv.2⟩, ?_⟩
  rw [seen_of_ctx (Function.update_self _ _ _), Option.some.injEq] at hb
  rw [← hb, Option.bind_some, World.setCtx_hashes, hv.1]
  exact congrArg _ (Function.update_self _ _ _)

end Frame

abbrev SessionHistory := List (SessionCall × Reply)

/-- Something recorded of every context, with what it says about the context and its hash.
Copying must keep this, and so must each call on the context itself. -/
structure ContextRecord (κ : Type) where
  start : κ
  next : κ → CtxCall × Reply → κ
  holds : κ → Seen → Prop
  made : ∀ provctx propq, holds start (⟨provctx, propq, none, none, none, 0, 0⟩, none)
  copied : ∀ {k ctx obj key h}, (key = none ↔ ctx.key = none) → holds k (ctx, some obj) →
    holds k ({ ctx with key := key, hashHandle := h }, some obj)
  acted : ∀ {k c e r w w' b b'}, (∀ o, e ≠ .dup o) → callCtx c e w = some (r, w') →
    seen w c = some b → seen w' c = some b' → holds k b → holds (next k (e, r)) b'

namespace ContextRecord

variable {κ : Type} (R : ContextRecord κ)

def of (hist : SessionHistory) : Addr → Option κ :=
  records R.start R.next (hist.map contextEvent)

theorem of_append (hist : SessionHistory) (x : SessionCall × Reply) :
    R.of (hist ++ [x]) = record R.start R.next (R.of hist) (contextEvent x) := by
  rw [of, List.map_append, List.map_singleton, records_append]
  rfl

end ContextRecord

structure Recorded {κ : Type} (R : ContextRecord κ) (hist : SessionHistory) (w : World) :
    Prop where
  well_formed : WellFormed w
  known_lt : ∀ c k, R.of hist c = some k → c < w.next
  agrees : Agrees seen R.holds (R.of hist) w

section Recorded

variable {κ : Type} {R : ContextRecord κ} {hist : SessionHistory} {w w' : World}

theorem recorded_start (hw : WellFormed w) : Recorded R [] w :=
  ⟨hw, fun _ _ h => (by cases h), fun _ _ _ h => (by cases h)⟩

theorem Recorded.known (h : Recorded R hist w) {c : Addr} {k : κ} {ctx : SignatureCtx}
    (hk : R.of hist c = some k) (hctx : w.sigctx c = some ctx) :
    R.holds k (ctx, ctx.hashHandle.bind w.hashes) :=
  h.agrees c k _ hk (seen_of_ctx hctx)

/-- Every call keeps the records of all contexts, whichever it is on. -/
theorem Recorded.step (hr : Recorded R hist w) {x : SessionCall} {r : Reply}
    (h : callSession x w = some (r, w')) : Recorded R (hist ++ [(x, r)]) w' := by
  have hdone := session_done h
  obtain ⟨hw', hle⟩ := done_next hr.well_formed hdone
  refine ⟨hw', fun c k hk => ?_, ?_⟩
  · rw [R.of_append] at hk
    rcases record_cases hk with ⟨_, hf⟩ | ⟨hx, _⟩ | ⟨d, hx, _⟩ | ⟨a, k₀, _, hf, _⟩
    · exact (hr.known_lt c k hf).trans_le hle
    · rw [hx] at hdone
      obtain ⟨_, _, rfl, rfl⟩ := hdone
      exact Nat.lt_succ_self _
    · rw [hx] at hdone
      obtain ⟨o, hcopy⟩ := hdone
      exact (dupctx_next hr.well_formed hcopy).2 c rfl
    · exact (hr.known_lt c k₀ hf).trans_le hle
  rw [R.of_append]
  refine hr.agrees.step (fun c hx hc => ?_) (fun d b hx hb => ?_) (fun c d k b hx hk hb => ?_)
    fun c a k b hx hk hb => ?_
  · obtain ⟨k, hk⟩ := Option.ne_none_iff_exists'.mp hc
    exact done_frame hr.well_formed hdone (hr.known_lt c k hk) hx
  · rw [hx] at hdone
    obtain ⟨provctx, propq, rfl, rfl⟩ := hdone
    rw [seen_of_ctx (Function.update_self _ _ _), Option.some.injEq] at hb
    rw [← hb]
    exact R.made provctx propq
  · rw [hx] at hdone
    obtain ⟨o, hcopy⟩ := hdone
    obtain ⟨ctx, obj, key, hctx, hobj, hkey, rfl⟩ := dupctx_copy hr.well_formed hcopy hb
    have hold := hr.known hk hctx
    rw [hobj] at hold
    exact R.copied hkey hold
  · rw [hx] at hdone
    obtain ⟨ctx, hctx, _⟩ := call_effect hdone.1 hdone.2 hb
    exact R.acted hdone.1 hdone.2 (seen_of_ctx hctx) hb (hr.known hk hctx)

end Recorded

end CngSignatureSessions
