import MakeDownFile.CngSignatureRuns
import MakeDownFile.ResourceLedger

/-! # Handles opened by the signature and key functions

The core calls newctx, the calls on a context it holds, and the key management functions,
and frees what it was given. The ledger counts the hash and key handles these calls open
against the releases. -/
namespace CngHandleLedger

open ResourceLedger
open CngWorld
open CngKeymgmt
open CngSignature
open CngSignatureRuns
open TraceRuns

inductive CoreCall where
  | signatureNewctx (malloc : Bool) (provctx : Option Addr) (propq : Option String)
  | signature (c : Addr) (e : CtxCall)
  | keymgmtNew (malloc : Bool)
  | keymgmtDup (o : DupCalls) (keydataFrom : Option Addr)
  | keymgmtLoad (o : DupCalls) (reference : Option Addr)
  | keymgmtFree (p : Addr)
  deriving DecidableEq, Repr

/-- The world with the contexts and key objects the core was given and has not freed. -/
structure Core where
  world : World
  ctxs : List Addr
  keys : List Addr

def Core.start (w : World) : Core := ⟨w, [], []⟩

def ctxsAfter (c : Addr) (ctxs : List Addr) : Reply → List Addr
  | .pointer p => p.toList ++ ctxs
  | .void => ctxs.erase c
  | _ => ctxs

/-- Only contexts and key objects that the core holds are used as contexts or freed. -/
def stepCore : CoreCall → Core → Option (Reply × Core)
  | .signatureNewctx malloc provctx propq, s =>
    let r := cngSignatureNewctx malloc provctx propq s.world
    some (.pointer r.1, ⟨r.2, r.1.toList ++ s.ctxs, s.keys⟩)
  | .signature c e, s =>
    if c ∈ s.ctxs then
      (callCtx c e s.world).map fun r => (r.1, ⟨r.2, ctxsAfter c s.ctxs r.1, s.keys⟩)
    else none
  | .keymgmtNew malloc, s =>
    let r := cngKeymgmtNew malloc s.world
    some (.pointer r.1, ⟨r.2, s.ctxs, r.1.toList ++ s.keys⟩)
  | .keymgmtDup o keydataFrom, s =>
    (cngKeymgmtDup o keydataFrom s.world).map fun r =>
      (.pointer r.1, ⟨r.2, s.ctxs, r.1.toList ++ s.keys⟩)
  | .keymgmtLoad o reference, s =>
    (cngKeymgmtLoad o reference s.world).map fun r =>
      (.pointer r.1, ⟨r.2, s.ctxs, r.1.toList ++ s.keys⟩)
  | .keymgmtFree p, s =>
    if p ∈ s.keys then
      (cngKeymgmtFree (some p) s.world).map fun w => (.void, ⟨w, s.ctxs, s.keys.erase p⟩)
    else none

inductive Resource where
  | hash (h : Handle)
  | key (h : Handle)
  deriving DecidableEq, Repr

def Resource.handle : Resource → Handle
  | .hash h => h
  | .key h => h

/-- What the provider opens and closes; the null key handle is nothing. -/
def handleLedger : Ledger SysCall Resource where
  acquires
    | .createHash h => [.hash h]
    | .duplicateHash h => [.hash h]
    | .openKey h => [.key h]
    | _ => []
  releases
    | .destroyHash h => h.toList.map .hash
    | .freeObject h => (h.toList.filter (· ≠ 0)).map .key
    | _ => []

def Owned (s : Core) : Resource → Prop
  | .hash h => ∃ c ∈ s.ctxs, (s.world.sigctx c).bind SignatureCtx.hashHandle = some h
  | .key h => h ≠ 0 ∧ ∃ p ∈ s.keys, s.world.keydata p = some ⟨h⟩

instance (s : Core) : DecidablePred (Owned s) := fun a =>
  match a with
  | .hash h => inferInstanceAs
      (Decidable (∃ c ∈ s.ctxs, (s.world.sigctx c).bind SignatureCtx.hashHandle = some h))
  | .key h => inferInstanceAs (Decidable (h ≠ 0 ∧ ∃ p ∈ s.keys, s.world.keydata p = some ⟨h⟩))

/-- The calls that lose a handle: an init that creates a hash in a context that has one, and
a duplication that gets as far as a second hash. -/
def Leaks (s : Core) : CoreCall → Prop
  | .signature c (.init o mdname _) =>
    createdHash o mdname ≠ none ∧ (s.world.sigctx c).bind SignatureCtx.hashHandle ≠ none
  | .signature c (.dup o) => usableHash o.duplicateHash
      ((s.world.sigctx c).bind SignatureCtx.hashHandle) s.world ≠ none
  | _ => False

/-- The contexts and key objects the core holds exist, and the keys are open. -/
structure Held (s : Core) : Prop where
  well_formed : WellFormed s.world
  ctx_lt : ∀ c ∈ s.ctxs, c < s.world.next
  key_lt : ∀ p ∈ s.keys, p < s.world.next
  key_open : ∀ p ∈ s.keys, ∀ h, s.world.keydata p = some ⟨h⟩ → h ≠ 0 → s.world.keys h ≠ none

theorem start_held {w : World} (hw : WellFormed w) : Held (.start w) :=
  ⟨hw, fun _ hc => absurd hc List.not_mem_nil, fun _ hp => absurd hp List.not_mem_nil,
    fun _ hp => absurd hp List.not_mem_nil⟩

theorem Held.owned_lt {s : Core} (hs : Held s) {a : Resource} (h : Owned s a) :
    a.handle < s.world.next := by
  cases a with
  | hash b =>
    obtain ⟨c, _, hb⟩ := h
    obtain ⟨ctx, hctx, hb⟩ := Option.bind_eq_some_iff.mp hb
    exact hs.well_formed.hash_lt hctx hb
  | key b =>
    obtain ⟨_, p, _, hp⟩ := h
    exact hs.well_formed.handle_lt hp

def Accounted (s s' : Core) (leaks : Prop) : Prop :=
  ∃ added gained dropped, s'.world.trace = s.world.trace ++ added ∧
    (∀ a, 0 < handleLedger.acquired added a →
      s.world.next ≤ a.handle ∧ a.handle < s'.world.next) ∧
    handleLedger.Transfer added (Owned s) (Owned s') gained dropped ∧
    (handleLedger.Lossless added gained dropped ↔ ¬ leaks)

theorem accounted_idle {s s' : Core} {leaks : Prop} (hl : ¬ leaks)
    (ht : s'.world.trace = s.world.trace) (ho : ∀ a, Owned s' a ↔ Owned s a) :
    Accounted s s' leaks :=
  ⟨[], [], [], by rw [ht, List.append_nil], fun a ha => absurd ha (Nat.lt_irrefl 0), .idle ho,
    by simp [Ledger.Lossless, hl]⟩

def hashOf (ctx : Option SignatureCtx) : List Resource :=
  (ctx.bind SignatureCtx.hashHandle).toList.map .hash

def keyOf (kd : Option KeyData) : List Resource :=
  ((kd.map KeyData.windowsKeyHandle).toList.filter (· ≠ 0)).map .key

theorem hash_mem {ctx : Option SignatureCtx} {h : Handle} :
    Resource.hash h ∈ hashOf ctx ↔ ctx.bind SignatureCtx.hashHandle = some h := by
  simp [hashOf]

theorem key_mem {kd : Option KeyData} {h : Handle} :
    Resource.key h ∈ keyOf kd ↔ kd = some ⟨h⟩ ∧ h ≠ 0 := by
  cases kd with
  | none => simp [keyOf]
  | some kd =>
    obtain ⟨b⟩ := kd
    simp only [keyOf, Option.map_some, Option.toList_some, List.mem_map, List.mem_filter,
      List.mem_singleton, decide_eq_true_eq, Resource.key.injEq, Option.some.injEq,
      KeyData.mk.injEq]
    constructor
    · rintro ⟨_, ⟨rfl, hne⟩, rfl⟩
      exact ⟨rfl, hne⟩
    · rintro ⟨rfl, hne⟩
      exact ⟨b, ⟨rfl, hne⟩, rfl⟩

theorem hash_nil {ctx : Option SignatureCtx} :
    hashOf ctx = [] ↔ ctx.bind SignatureCtx.hashHandle = none := by
  simp [hashOf]

theorem hash_nodup (ctx : Option SignatureCtx) : (hashOf ctx).Nodup := by
  unfold hashOf
  cases ctx.bind SignatureCtx.hashHandle <;> simp

theorem key_nodup (kd : Option KeyData) : (keyOf kd).Nodup := by
  cases kd with
  | none => simp [keyOf]
  | some kd => by_cases h : kd.windowsKeyHandle = 0 <;> simp [keyOf, h]

@[simp] theorem key_not_mem_hash {ctx : Option SignatureCtx} {h : Handle} :
    Resource.key h ∉ hashOf ctx := by
  simp [hashOf]

@[simp] theorem hash_not_mem_key {kd : Option KeyData} {h : Handle} :
    Resource.hash h ∉ keyOf kd := by
  simp [keyOf]

section Owners

variable {s t : Core}

theorem owned_update {c : Addr} {ctx ctx' : SignatureCtx} (hc : s.world.sigctx c = some ctx)
    (hh : ctx'.hashHandle = ctx.hashHandle) (a : Resource) :
    Owned ⟨s.world.setCtx c (some ctx'), s.ctxs, s.keys⟩ a ↔ Owned s a := by
  cases a with
  | key h => exact Iff.rfl
  | hash h =>
    have hsame : ∀ d, ((s.world.setCtx c (some ctx')).sigctx d).bind SignatureCtx.hashHandle =
        (s.world.sigctx d).bind SignatureCtx.hashHandle := by
      intro d
      by_cases hd : d = c
      · subst hd
        rw [World.setCtx_sigctx, Function.update_self, hc]
        exact hh
      · rw [World.setCtx_sigctx, Function.update_of_ne hd]
    simp only [Owned, hsame]

theorem owned_same (hctxs : t.ctxs = s.ctxs) (hkeys : t.keys = s.keys)
    (hsig : ∀ c ∈ s.ctxs, (t.world.sigctx c).bind SignatureCtx.hashHandle =
      (s.world.sigctx c).bind SignatureCtx.hashHandle)
    (hkd : ∀ p ∈ s.keys, t.world.keydata p = s.world.keydata p) (a : Resource) :
    Owned t a ↔ Owned s a := by
  cases a with
  | hash h =>
    unfold Owned
    rw [hctxs]
    exact exists_congr fun c => and_congr_right fun hc => by rw [hsig c hc]
  | key h =>
    unfold Owned
    rw [hkeys]
    exact and_congr_right fun _ => exists_congr fun p => and_congr_right fun hp => by rw [hkd p hp]

theorem owned_ctx (hs : Held s) (c : Addr)
    (hother : ∀ d, d ≠ c → t.world.sigctx d = s.world.sigctx d ∧ (d ∈ t.ctxs ↔ d ∈ s.ctxs))
    (hmem : t.world.sigctx c ≠ none → c ∈ t.ctxs) (hkeys : t.keys = s.keys)
    (hkd : ∀ p ∈ s.keys, t.world.keydata p = s.world.keydata p) (a : Resource) :
    Owned t a ↔ a ∈ hashOf (t.world.sigctx c) ∨ Owned s a ∧ a ∉ hashOf (s.world.sigctx c) := by
  cases a with
  | key h =>
    simp only [key_not_mem_hash, false_or, not_false_eq_true, and_true]
    unfold Owned
    rw [hkeys]
    exact and_congr_right fun _ => exists_congr fun p => and_congr_right fun hp => by rw [hkd p hp]
  | hash h =>
    rw [hash_mem, hash_mem]
    constructor
    · rintro ⟨d, hd, hh⟩
      by_cases hdc : d = c
      · exact Or.inl (hdc ▸ hh)
      · obtain ⟨hsig, hd'⟩ := hother d hdc
        rw [hsig] at hh
        refine Or.inr ⟨⟨d, hd'.mp hd, hh⟩, fun hc => hdc ?_⟩
        obtain ⟨x, hx, hxh⟩ := Option.bind_eq_some_iff.mp hh
        obtain ⟨y, hy, hyh⟩ := Option.bind_eq_some_iff.mp hc
        exact hs.well_formed.hash_unshared hx hy hxh hyh
    · rintro (hh | ⟨⟨d, hd, hh⟩, hne⟩)
      · refine ⟨c, hmem fun hn => ?_, hh⟩
        rw [hn] at hh
        cases hh
      · have hdc : d ≠ c := by
          rintro rfl
          exact hne hh
        obtain ⟨hsig, hd'⟩ := hother d hdc
        exact ⟨d, hd'.mpr hd, by rw [hsig, hh]⟩

theorem owned_key (hs : Held s) (p : Addr)
    (hother : ∀ q, q ≠ p → t.world.keydata q = s.world.keydata q ∧ (q ∈ t.keys ↔ q ∈ s.keys))
    (hmem : t.world.keydata p ≠ none → p ∈ t.keys) (hctxs : t.ctxs = s.ctxs)
    (hsig : t.world.sigctx = s.world.sigctx) (a : Resource) :
    Owned t a ↔ a ∈ keyOf (t.world.keydata p) ∨
      Owned s a ∧ a ∉ keyOf (s.world.keydata p) := by
  cases a with
  | hash h =>
    simp only [hash_not_mem_key, false_or, not_false_eq_true, and_true]
    unfold Owned
    rw [hctxs, hsig]
  | key h =>
    rw [key_mem, key_mem]
    constructor
    · rintro ⟨hne, q, hq, hh⟩
      by_cases hqp : q = p
      · exact Or.inl ⟨hqp ▸ hh, hne⟩
      · obtain ⟨hkd, hq'⟩ := hother q hqp
        rw [hkd] at hh
        refine Or.inr ⟨⟨hne, q, hq'.mp hq, hh⟩, fun hp => hqp ?_⟩
        obtain ⟨k, hk⟩ := Option.ne_none_iff_exists'.mp (hs.key_open q (hq'.mp hq) h hh hne)
        exact hs.well_formed.key_unshared hh hp.1 hk
    · rintro (⟨hh, hne⟩ | ⟨⟨hne, q, hq, hh⟩, hnp⟩)
      · refine ⟨hne, p, hmem fun hn => ?_, hh⟩
        rw [hn] at hh
        cases hh
      · have hqp : q ≠ p := by
          rintro rfl
          exact hnp ⟨hh, hne⟩
        obtain ⟨hkd, hq'⟩ := hother q hqp
        exact ⟨hne, q, hq'.mpr hq, by rw [hkd, hh]⟩

end Owners

section Steps

variable {s : Core}

theorem Held.extend (hs : Held s) {s' : Core} (hw : WellFormed s'.world)
    (hnext : s.world.next ≤ s'.world.next)
    (hctxs : ∀ c ∈ s'.ctxs, c ∈ s.ctxs ∨ c < s'.world.next)
    (hkeys : ∀ p ∈ s'.keys, p ∈ s.keys ∨ (p < s'.world.next ∧
      ∀ h, s'.world.keydata p = some ⟨h⟩ → h ≠ 0 → s'.world.keys h ≠ none))
    (hkd : ∀ p, p < s.world.next → s'.world.keydata p = s.world.keydata p)
    (hk : ∀ h, h < s.world.next → s'.world.keys h = s.world.keys h) : Held s' := by
  refine ⟨hw, fun c hc => ?_, fun p hp => ?_, fun p hp h hh hne => ?_⟩
  · exact (hctxs c hc).elim (fun hc => (hs.ctx_lt c hc).trans_le hnext) id
  · exact (hkeys p hp).elim (fun hp => (hs.key_lt p hp).trans_le hnext) And.left
  · rcases hkeys p hp with hp | hp
    · rw [hkd p (hs.key_lt p hp)] at hh
      rw [hk h (hs.well_formed.handle_lt hh)]
      exact hs.key_open p hp h hh hne
    · exact hp.2 h hh hne

theorem Held.signature (hs : Held s) {c : Addr} {e : CtxCall} {r : Reply} {w' : World}
    (hdup : ∀ o, e ≠ .dup o) (h : callCtx c e s.world = some (r, w')) :
    Held ⟨w', ctxsAfter c s.ctxs r, s.keys⟩ := by
  obtain ⟨-, hkd, hk, -⟩ := call_ctx_frame hs.well_formed hdup (Nat.succ_ne_self c) h
  refine hs.extend (hs.well_formed.callCtx h) (call_ctx_next hdup h) (fun d hd => ?_)
    (fun _ hp => Or.inl hp) (fun _ _ => congrFun hkd _) (fun _ _ => congrFun hk _)
  have h' := call_ctx_cases h
  cases e with
  | dup o => exact absurd rfl (hdup o)
  | free =>
    obtain ⟨rfl, _⟩ := h'
    exact Or.inl (List.mem_of_mem_erase hd)
  | _ =>
    obtain ⟨_, rfl, _⟩ := h'
    exact Or.inl hd

theorem hash_owned {c : Addr} (hc : c ∈ s.ctxs) :
    ∀ a ∈ hashOf (s.world.sigctx c), Owned s a := by
  intro a ha
  cases a with
  | hash h => exact ⟨c, hc, hash_mem.mp ha⟩
  | key h => exact absurd ha key_not_mem_hash

theorem key_owned {p : Addr} (hp : p ∈ s.keys) : ∀ a ∈ keyOf (s.world.keydata p), Owned s a := by
  intro a ha
  cases a with
  | hash h => exact absurd ha hash_not_mem_key
  | key h => exact ⟨(key_mem.mp ha).2, p, hp, (key_mem.mp ha).1⟩

theorem Held.unowned (hs : Held s) {a : Resource} (ha : s.world.next ≤ a.handle) : ¬ Owned s a :=
  fun ho => Nat.not_le_of_lt (hs.owned_lt ho) ha

theorem init_accounted (hs : Held s) {c : Addr} (hc : c ∈ s.ctxs) {o : InitCalls}
    {mdname : Option String} {provkey : Option Addr} {i : ℤ} {w' : World}
    (h : cngSignatureDigestSignInit o c mdname provkey s.world = some (i, w')) :
    Accounted s ⟨w', s.ctxs, s.keys⟩ (Leaks s (.signature c (.init o mdname provkey))) := by
  obtain ⟨ctx, hctx, ⟨alg, hcreated, _, rfl⟩ | ⟨hnone, _, rfl⟩⟩ := init_cases h
  · let w := (s.world.addHash (.createHash s.world.next) ⟨alg, [], false⟩).setCtx c (some { ctx with
      key := provkey, algIdentifier := some alg, hashHandle := some s.world.next })
    have hself : w.sigctx c = some { ctx with
        key := provkey, algIdentifier := some alg, hashHandle := some s.world.next } :=
      Function.update_self _ _ _
    have hother : ∀ d, d ≠ c → w.sigctx d = s.world.sigctx d ∧ (d ∈ s.ctxs ↔ d ∈ s.ctxs) :=
      fun d hd => ⟨Function.update_of_ne hd _ _, Iff.rfl⟩
    have howned := owned_ctx (t := ⟨w, s.ctxs, s.keys⟩) hs c hother (fun _ => hc) rfl
      (fun _ _ => rfl)
    have hgain : hashOf (w.sigctx c) = [.hash s.world.next] := by rw [hself]; rfl
    simp only [hgain] at howned
    obtain ⟨htransfer, hloss⟩ := Ledger.Transfer.opening (L := handleLedger)
      (e := .createHash s.world.next) rfl rfl (hs.unowned (le_refl s.world.next)) (hash_owned hc)
      howned
    refine ⟨[.createHash s.world.next], _, _, rfl, fun a ha => ?_, htransfer, hloss.trans ?_⟩
    · obtain rfl : a = .hash s.world.next := by simpa [handleLedger, acquired_pos] using ha
      exact ⟨le_rfl, Nat.lt_succ_self _⟩
    · simp [hash_nil, Leaks, hcreated]
  · exact accounted_idle (fun hl => hl.1 hnone) rfl (owned_update hctx rfl)

theorem free_accounted (hs : Held s) {c : Addr} (hc : c ∈ s.ctxs) {w' : World}
    (h : cngSignatureFreectx c s.world = some w') :
    Accounted s ⟨w', s.ctxs.erase c, s.keys⟩ False := by
  obtain ⟨ctx, hctx, rfl⟩ := freectx_cases h
  let w := (s.world.destroyHash ctx.hashHandle).setCtx c none
  have hself : w.sigctx c = none := Function.update_self _ _ _
  have hother : ∀ d, d ≠ c →
      w.sigctx d = s.world.sigctx d ∧ (d ∈ s.ctxs.erase c ↔ d ∈ s.ctxs) :=
    fun d hd => ⟨Function.update_of_ne hd _ _, List.mem_erase_of_ne hd⟩
  have howned := owned_ctx (t := ⟨w, s.ctxs.erase c, s.keys⟩) hs c hother
    (fun hn => absurd hself hn) rfl (fun _ _ => rfl)
  have hgain : hashOf (w.sigctx c) = [] := by rw [hself]; rfl
  simp only [hgain, List.not_mem_nil, false_or] at howned
  have hrel : handleLedger.releases (.destroyHash ctx.hashHandle) = hashOf (s.world.sigctx c) := by
    rw [hctx]
    rfl
  obtain ⟨htransfer, hloss⟩ := Ledger.Transfer.closing (L := handleLedger) rfl hrel (hash_nodup _)
    (hash_owned hc) howned
  refine ⟨[.destroyHash ctx.hashHandle], _, _, rfl, fun a ha => ?_, htransfer, by simp [hloss]⟩
  simp [handleLedger] at ha

theorem accounted_losing (hs : Held s) {s' : Core} {leaks : Prop} (hl : leaks)
    {added : List SysCall} (gained : List Resource)
    (ht : s'.world.trace = s.world.trace ++ added)
    (hrel : added.flatMap handleLedger.releases = [])
    (hnodup : (added.flatMap handleLedger.acquires).Nodup)
    (hyoung : ∀ a ∈ added.flatMap handleLedger.acquires,
      s.world.next ≤ a.handle ∧ a.handle < s'.world.next)
    (hgained : ∀ a ∈ gained, a ∈ added.flatMap handleLedger.acquires)
    (howned : ∀ a, Owned s' a ↔ a ∈ gained ∨ Owned s a)
    (hlost : ∃ a ∈ added.flatMap handleLedger.acquires, a ∉ gained) : Accounted s s' leaks := by
  have hunowned : ∀ a ∈ added.flatMap handleLedger.acquires, ¬ Owned s a := by
    intro a ha
    apply hs.unowned
    exact (hyoung a ha).1
  obtain ⟨htransfer, hloss⟩ :=
    Ledger.Transfer.losing hnodup hrel hunowned hgained howned hlost
  refine ⟨added, gained, [], ht, ?_, htransfer, iff_of_false hloss (not_not.mpr hl)⟩
  intro a ha
  exact hyoung a (List.count_pos_iff.mp ha)

/-- The key could not be duplicated, and the new hash is forgotten. -/
theorem forgotten_copy_accounted (hs : Held s) {leaks : Prop} (hl : leaks) {w' : World}
    (ht : w'.trace = s.world.trace ++ [.duplicateHash (s.world.next + 1)])
    (hnext : s.world.next + 1 < w'.next)
    (howned : ∀ a, Owned ⟨w', s.ctxs, s.keys⟩ a ↔ Owned s a) :
    Accounted s ⟨w', s.ctxs, s.keys⟩ leaks := by
  have hacq : ([.duplicateHash (s.world.next + 1)] : List SysCall).flatMap handleLedger.acquires =
      [.hash (s.world.next + 1)] := rfl
  apply accounted_losing hs hl [] ht rfl
  · simp [hacq]
  · intro a ha
    rw [hacq, List.mem_singleton] at ha
    subst ha
    exact ⟨Nat.le_succ _, hnext⟩
  · intro a ha
    cases ha
  · intro a
    simp [howned a]
  · exact ⟨.hash (s.world.next + 1), by simp [hacq], List.not_mem_nil⟩

/-- The copy is returned, but nobody frees the key opened for it. -/
theorem returned_copy_accounted (hs : Held s) {leaks : Prop} (hl : leaks) {w' : World}
    (ht : w'.trace = s.world.trace ++
      [.duplicateHash (s.world.next + 1), .openKey (s.world.next + 3)])
    (hnext : s.world.next + 3 < w'.next)
    (howned : ∀ a, Owned ⟨w', s.world.next :: s.ctxs, s.keys⟩ a ↔
      a ∈ [Resource.hash (s.world.next + 1)] ∨ Owned s a) :
    Accounted s ⟨w', s.world.next :: s.ctxs, s.keys⟩ leaks := by
  have hacq : ([.duplicateHash (s.world.next + 1), .openKey (s.world.next + 3)] :
      List SysCall).flatMap handleLedger.acquires =
      [.hash (s.world.next + 1), .key (s.world.next + 3)] := rfl
  apply accounted_losing hs hl [.hash (s.world.next + 1)] ht rfl
  · simp [hacq]
  · intro a ha
    rw [hacq, List.mem_cons, List.mem_singleton] at ha
    rcases ha with rfl | rfl
    · have hlt : s.world.next + 1 < w'.next := by omega
      exact ⟨Nat.le_succ _, hlt⟩
    · exact ⟨Nat.le_add_right _ 3, hnext⟩
  · intro a ha
    rw [hacq]
    exact List.mem_cons.mpr (Or.inl (List.mem_singleton.mp ha))
  · exact howned
  · exact ⟨.key (s.world.next + 3), by simp [hacq], by simp⟩

/-- What a duplication opens has no owner, but for the hash of a copy that is returned. -/
theorem dup_accounted (hs : Held s) {c : Addr} {o : DupctxCalls} {p : Option Addr} {w' : World}
    (h : cngSignatureDupctx o c s.world = some (p, w')) :
    Accounted s ⟨w', p.toList ++ s.ctxs, s.keys⟩ (Leaks s (.signature c (.dup o))) := by
  obtain ⟨hsig, -, hkd, -⟩ := dupctx_frame hs.well_formed h
  have hkeys : ∀ q ∈ s.keys, w'.keydata q = s.world.keydata q := fun q hq => hkd q (hs.key_lt q hq)
  have hsame : ∀ a, Owned ⟨w', s.ctxs, s.keys⟩ a ↔ Owned s a := by
    apply owned_same (s := s) (t := ⟨w', s.ctxs, s.keys⟩) rfl rfl
    · intro d hd
      rw [hsig d (hs.ctx_lt d hd)]
    · exact hkeys
  obtain ⟨old, hold, ⟨rfl, hnone, hw'⟩ | ⟨obj, key, v, hobj, hdup, hcase⟩⟩ := dupctx_cases h
  · refine accounted_idle ?_ ?_ hsame
    · simp [Leaks, hold, hnone]
    · rcases hw' with rfl | rfl <;> rfl
  have hleaks : Leaks s (.signature c (.dup o)) := by simp [Leaks, hold, hobj]
  let u := (s.world.addCtx ⟨old.provctx, old.propq, none, none, none, 0, 0⟩).addHash
    (.duplicateHash (s.world.next + 1)) obj
  have hu : Fresh u := (hs.well_formed.fresh.addCtx _).addHash _ _
  rcases hcase with ⟨rfl, hkey, _, hw'⟩ | ⟨rfl, hkey, hw'⟩
  · have hv : v.trace = u.trace ∧ u.next ≤ v.next := by
      rcases keymgmt_dup_cases hu hdup with ⟨_, rfl | rfl⟩ | ⟨_, _, _, _, _, _, hr, _⟩
      · exact ⟨rfl, le_rfl⟩
      · exact ⟨rfl, Nat.le_succ _⟩
      · rw [hkey] at hr
        cases hr
    apply forgotten_copy_accounted hs hleaks
    · rw [hw']
      exact hv.1
    · rw [hw']
      exact (Nat.lt_succ_self _).trans_le hv.2
    · exact hsame
  · rcases keymgmt_dup_cases hu hdup with ⟨rfl, _⟩ | ⟨_, _, k, _, _, _, _, hv⟩
    · -- without a key the duplication would have dereferenced NULL
      rw [hkey rfl] at hdup
      cases hdup
    have hother : ∀ d, d ≠ s.world.next → w'.sigctx d = s.world.sigctx d ∧
        (d ∈ s.world.next :: s.ctxs ↔ d ∈ s.ctxs) := by
      intro d hd
      refine ⟨?_, by simp [hd]⟩
      rw [hw', hv]
      exact (Function.update_of_ne hd _ _).trans (Function.update_of_ne hd _ _)
    have howned := owned_ctx (t := ⟨w', s.world.next :: s.ctxs, s.keys⟩) hs s.world.next hother
      (fun _ => List.mem_cons_self) rfl hkeys
    have hgain : hashOf (w'.sigctx s.world.next) = [.hash (s.world.next + 1)] := by
      rw [hw', World.setCtx_sigctx, Function.update_self]
      rfl
    have hdrop : hashOf (s.world.sigctx s.world.next) = [] := by
      rw [hs.well_formed.fresh.sigctx _ le_rfl]
      rfl
    simp only [hgain, hdrop, List.not_mem_nil, not_false_eq_true, and_true] at howned
    apply returned_copy_accounted hs hleaks
    · rw [hw', hv]
      exact List.append_assoc s.world.trace [_] [_]
    · rw [hw', hv]
      exact Nat.lt_succ_self _
    · exact howned

theorem signature_accounted (hs : Held s) {c : Addr} (hc : c ∈ s.ctxs) {e : CtxCall} {r : Reply}
    {w' : World} (h : callCtx c e s.world = some (r, w')) :
    Accounted s ⟨w', ctxsAfter c s.ctxs r, s.keys⟩ (Leaks s (.signature c e)) := by
  have h' := call_ctx_cases h
  cases e with
  | init o mdname provkey =>
    obtain ⟨_, rfl, h'⟩ := h'
    exact init_accounted hs hc h'
  | update hashData data =>
    obtain ⟨_, rfl, h'⟩ := h'
    obtain ⟨_, _, ⟨_, rfl⟩ | ⟨_, _, _, _, _, _, rfl⟩⟩ := update_cases h' <;>
      exact accounted_idle id rfl (owned_same rfl rfl (fun _ _ => rfl) (fun _ _ => rfl))
  | setParams o params =>
    obtain ⟨_, rfl, h'⟩ := h'
    rcases set_params_frame h' with rfl | ⟨ctx, _, _, hctx, rfl⟩
    · exact accounted_idle id rfl (owned_same rfl rfl (fun _ _ => rfl) (fun _ _ => rfl))
    · exact accounted_idle id rfl (owned_update hctx rfl)
  | final o sig siglen sigsize =>
    obtain ⟨_, rfl, h'⟩ := h'
    obtain ⟨_, _, ⟨rfl, _⟩ | ⟨_, _, _, _, _, _, rfl, _⟩⟩ := final_cases h' <;>
      exact accounted_idle id rfl (owned_same rfl rfl (fun _ _ => rfl) (fun _ _ => rfl))
  | dup o =>
    obtain ⟨_, rfl, h'⟩ := h'
    exact dup_accounted hs h'
  | free =>
    obtain ⟨rfl, h'⟩ := h'
    exact free_accounted hs hc h'

theorem Held.newctx (hs : Held s) (malloc : Bool) (provctx : Option Addr) (propq : Option String) :
    Held ⟨(cngSignatureNewctx malloc provctx propq s.world).2,
      (cngSignatureNewctx malloc provctx propq s.world).1.toList ++ s.ctxs, s.keys⟩ := by
  have hw := hs.well_formed.newctx malloc provctx propq
  cases malloc with
  | false => exact hs
  | true =>
    refine hs.extend hw (Nat.le_succ _) (fun c hc => ?_) (fun _ hp => Or.inl hp)
      (fun _ _ => rfl) (fun _ _ => rfl)
    rcases List.mem_cons.mp hc with rfl | hc
    · exact Or.inr (Nat.lt_succ_self _)
    · exact Or.inl hc

theorem Held.dupctx (hs : Held s) {c : Addr} {o : DupctxCalls} {p : Option Addr} {w' : World}
    (h : cngSignatureDupctx o c s.world = some (p, w')) :
    Held ⟨w', p.toList ++ s.ctxs, s.keys⟩ := by
  obtain ⟨-, -, hkd, hk⟩ := dupctx_frame hs.well_formed h
  obtain ⟨hnext, hp⟩ := dupctx_next hs.well_formed h
  refine hs.extend (hs.well_formed.dupctx h) hnext (fun d hd => ?_) (fun _ hp => Or.inl hp) hkd hk
  rcases List.mem_append.mp hd with hd | hd
  · exact Or.inr (hp d (Option.mem_toList.mp hd))
  · exact Or.inl hd

theorem Held.keymgmtNew (hs : Held s) (malloc : Bool) :
    Held ⟨(cngKeymgmtNew malloc s.world).2, s.ctxs,
      (cngKeymgmtNew malloc s.world).1.toList ++ s.keys⟩ := by
  have hw := hs.well_formed.keymgmtNew malloc
  cases malloc with
  | false => exact hs
  | true =>
    refine hs.extend hw (Nat.le_succ _) (fun _ hc => Or.inl hc) (fun p hp => ?_)
      (fun p hp => Function.update_of_ne hp.ne _ _) (fun _ _ => rfl)
    rcases List.mem_cons.mp hp with rfl | hp
    · refine Or.inr ⟨Nat.lt_succ_self _, fun h hh hne => ?_⟩
      have hnew : (s.world.addKeydata).keydata s.world.next = some ⟨0⟩ := Function.update_self _ _ _
      cases hnew.symm.trans hh
      exact absurd rfl hne
    · exact Or.inl hp

theorem Held.keymgmtDup (hs : Held s) {o : DupCalls} {src p : Option Addr} {w' : World}
    (h : cngKeymgmtDup o src s.world = some (p, w')) : Held ⟨w', s.ctxs, p.toList ++ s.keys⟩ := by
  obtain ⟨_, hnext, _, hkd, hk⟩ := frame_keymgmt_dup hs.well_formed.fresh h
  refine hs.extend (hs.well_formed.keymgmtDup h) hnext (fun _ hc => Or.inl hc) (fun q hq => ?_)
    hkd hk
  rcases keymgmt_dup_cases hs.well_formed.fresh h with ⟨rfl, _⟩ | ⟨_, _, k, _, _, _, rfl, rfl⟩
  · exact Or.inl hq
  · rcases List.mem_cons.mp hq with rfl | hq
    · refine Or.inr ⟨Nat.lt_succ_of_lt (Nat.lt_succ_self _), fun h hh _ => ?_⟩
      rw [World.setKeydata_keydata, Function.update_self] at hh
      cases hh
      rw [World.setKeydata_keys, World.addKey_keys, World.addKeydata_next, Function.update_self]
      exact Option.some_ne_none k
    · exact Or.inl hq

theorem keymgmt_free_next {p : Addr} {w w' : World} (h : cngKeymgmtFree (some p) w = some w') :
    w'.next = w.next := by
  obtain ⟨_, kd, -, -, rfl⟩ := keymgmt_free_cases h
  rfl

theorem Held.keymgmtFree (hs : Held s) {p : Addr} (hp : p ∈ s.keys) {w' : World}
    (h : cngKeymgmtFree (some p) s.world = some w') : Held ⟨w', s.ctxs, s.keys.erase p⟩ := by
  obtain ⟨_, _, hnone, hkd, hk⟩ := keymgmt_free_frame hs.well_formed h
  have hnext := keymgmt_free_next h
  refine ⟨hs.well_formed.keymgmtFree h, fun c hc => ?_, fun q hq => ?_, fun q hq b hb hne => ?_⟩
  · show c < w'.next
    rw [hnext]
    exact hs.ctx_lt c hc
  · show q < w'.next
    rw [hnext]
    exact hs.key_lt q (List.mem_of_mem_erase hq)
  · have hq' := List.mem_of_mem_erase hq
    by_cases hqp : q = p
    · subst hqp
      rw [hnone] at hb
      cases hb
    · rw [hkd q hqp] at hb
      rw [hk q _ hqp hb]
      exact hs.key_open q hq' b hb hne

theorem newctx_accounted (hs : Held s) (malloc : Bool) (provctx : Option Addr)
    (propq : Option String) :
    Accounted s ⟨(cngSignatureNewctx malloc provctx propq s.world).2,
      (cngSignatureNewctx malloc provctx propq s.world).1.toList ++ s.ctxs, s.keys⟩ False := by
  cases malloc with
  | false => exact accounted_idle id rfl fun _ => Iff.rfl
  | true =>
    let ctx : SignatureCtx := ⟨provctx, propq, none, none, none, 0, 0⟩
    have hother : ∀ d, d ≠ s.world.next → (s.world.addCtx ctx).sigctx d = s.world.sigctx d ∧
        (d ∈ s.world.next :: s.ctxs ↔ d ∈ s.ctxs) := fun d hd =>
      ⟨Function.update_of_ne hd _ _, by simp [hd]⟩
    have howned := owned_ctx (t := ⟨s.world.addCtx ctx, s.world.next :: s.ctxs, s.keys⟩) hs
      s.world.next hother (fun _ => List.mem_cons_self) rfl (fun _ _ => rfl)
    have hgain : hashOf ((s.world.addCtx ctx).sigctx s.world.next) = [] := by
      rw [World.addCtx_sigctx, Function.update_self]
      rfl
    have hdrop : hashOf (s.world.sigctx s.world.next) = [] := by
      rw [hs.well_formed.fresh.sigctx _ le_rfl]
      rfl
    refine accounted_idle id rfl fun a => (howned a).trans ?_
    rw [hgain, hdrop]
    simp

theorem keymgmt_new_accounted (hs : Held s) (malloc : Bool) :
    Accounted s ⟨(cngKeymgmtNew malloc s.world).2, s.ctxs,
      (cngKeymgmtNew malloc s.world).1.toList ++ s.keys⟩ False := by
  cases malloc with
  | false => exact accounted_idle id rfl fun _ => Iff.rfl
  | true =>
    have hother : ∀ q, q ≠ s.world.next → s.world.addKeydata.keydata q = s.world.keydata q ∧
        (q ∈ s.world.next :: s.keys ↔ q ∈ s.keys) := fun q hq =>
      ⟨Function.update_of_ne hq _ _, by simp [hq]⟩
    have howned := owned_key (t := ⟨s.world.addKeydata, s.ctxs, s.world.next :: s.keys⟩) hs
      s.world.next hother (fun _ => List.mem_cons_self) rfl rfl
    have hgain : keyOf (s.world.addKeydata.keydata s.world.next) = [] := by
      rw [World.addKeydata_keydata, Function.update_self]
      rfl
    have hdrop : keyOf (s.world.keydata s.world.next) = [] := by
      rw [hs.well_formed.fresh.keydata _ le_rfl]
      rfl
    refine accounted_idle id rfl fun a => (howned a).trans ?_
    rw [hgain, hdrop]
    simp

theorem keymgmt_dup_accounted (hs : Held s) {o : DupCalls} {src p : Option Addr} {w' : World}
    (h : cngKeymgmtDup o src s.world = some (p, w')) :
    Accounted s ⟨w', s.ctxs, p.toList ++ s.keys⟩ False := by
  rcases keymgmt_dup_cases hs.well_formed.fresh h with ⟨rfl, hw'⟩ | ⟨_, _, k, _, _, _, rfl, hw'⟩
  · obtain ⟨_, _, _, hkd, _⟩ := frame_keymgmt_dup hs.well_formed.fresh h
    refine accounted_idle id ?_ (owned_same rfl rfl (fun _ _ => ?_)
      fun q hq => hkd q (hs.key_lt q hq))
    · rcases hw' with rfl | rfl <;> rfl
    · rcases hw' with rfl | rfl <;> rfl
  · have hother : ∀ q, q ≠ s.world.next → w'.keydata q = s.world.keydata q ∧
        (q ∈ s.world.next :: s.keys ↔ q ∈ s.keys) := by
      intro q hq
      refine ⟨?_, by simp [hq]⟩
      rw [hw']
      exact (Function.update_of_ne hq _ _).trans (Function.update_of_ne hq _ _)
    have howned := owned_key (t := ⟨w', s.ctxs, s.world.next :: s.keys⟩) hs s.world.next hother
      (fun _ => List.mem_cons_self) rfl (by rw [hw']; rfl)
    have hgain : keyOf (w'.keydata s.world.next) = [.key (s.world.next + 1)] := by
      rw [hw', World.setKeydata_keydata, Function.update_self]
      simp [keyOf]
    have hdrop : keyOf (s.world.keydata s.world.next) = [] := by
      rw [hs.well_formed.fresh.keydata _ le_rfl]
      rfl
    simp only [hgain, hdrop] at howned
    have hle : s.world.next ≤ (Resource.key (s.world.next + 1)).handle := Nat.le_succ _
    obtain ⟨htransfer, hloss⟩ := Ledger.Transfer.opening (L := handleLedger)
      (e := .openKey (s.world.next + 1)) rfl rfl (hs.unowned hle)
      (show ∀ b ∈ ([] : List Resource), Owned s b from fun _ hb => nomatch hb) howned
    refine ⟨[.openKey (s.world.next + 1)], _, [], ?_, fun a ha => ?_, htransfer,
      by simp [hloss]⟩
    · rw [hw']
      rfl
    · obtain rfl : a = .key (s.world.next + 1) := by simpa [handleLedger, acquired_pos] using ha
      refine ⟨hle, ?_⟩
      rw [hw']
      exact Nat.lt_succ_self _

theorem keymgmt_free_accounted (hs : Held s) {p : Addr} (hp : p ∈ s.keys) {w' : World}
    (h : cngKeymgmtFree (some p) s.world = some w') :
    Accounted s ⟨w', s.ctxs, s.keys.erase p⟩ False := by
  obtain ⟨hsig, _, hnone, hkd, _⟩ := keymgmt_free_frame hs.well_formed h
  have hother : ∀ q, q ≠ p → w'.keydata q = s.world.keydata q ∧ (q ∈ s.keys.erase p ↔ q ∈ s.keys) :=
    fun q hq => ⟨hkd q hq, List.mem_erase_of_ne hq⟩
  have howned := owned_key (t := ⟨w', s.ctxs, s.keys.erase p⟩) hs p hother
    (fun hn => absurd hnone hn) rfl hsig
  have hgain : keyOf (w'.keydata p) = [] := by
    rw [hnone]
    rfl
  simp only [hgain, List.not_mem_nil, false_or] at howned
  obtain ⟨_, kd, ⟨⟩, hp', hw'⟩ := keymgmt_free_cases h
  have hrel : handleLedger.releases (.freeObject (some kd.windowsKeyHandle)) =
      keyOf (s.world.keydata p) := by
    rw [hp']
    rfl
  obtain ⟨htransfer, hloss⟩ := Ledger.Transfer.closing (L := handleLedger) rfl hrel (key_nodup _)
    (key_owned hp) howned
  refine ⟨[.freeObject (some kd.windowsKeyHandle)], _, _, ?_, fun a ha => ?_, htransfer,
    by simp [hloss]⟩
  · rw [hw']
    rfl
  · simp [handleLedger] at ha

/-- One call of the core keeps what it holds in order, and loses a handle exactly when it is
one of the leaking calls. -/
theorem step_accounted (hs : Held s) {e : CoreCall} {r : Reply} {s' : Core}
    (h : stepCore e s = some (r, s')) : Held s' ∧ Accounted s s' (Leaks s e) := by
  cases e with
  | signatureNewctx malloc provctx propq =>
    cases h
    exact ⟨hs.newctx malloc provctx propq, newctx_accounted hs malloc provctx propq⟩
  | signature c e =>
    simp only [stepCore] at h
    split at h
    · rename_i hc
      obtain ⟨⟨r, w'⟩, hcall, heq⟩ := Option.map_eq_some_iff.mp h
      cases heq
      refine ⟨?_, signature_accounted hs hc hcall⟩
      by_cases hdup : ∃ o, e = .dup o
      · obtain ⟨o, rfl⟩ := hdup
        obtain ⟨p, rfl, hdupctx⟩ := call_ctx_cases hcall
        exact hs.dupctx hdupctx
      · exact hs.signature (fun o ho => hdup ⟨o, ho⟩) hcall
    · cases h
  | keymgmtNew malloc =>
    cases h
    exact ⟨hs.keymgmtNew malloc, keymgmt_new_accounted hs malloc⟩
  | keymgmtDup o src =>
    obtain ⟨⟨p, w'⟩, hcall, heq⟩ := Option.map_eq_some_iff.mp h
    cases heq
    exact ⟨hs.keymgmtDup hcall, keymgmt_dup_accounted hs hcall⟩
  | keymgmtLoad o reference =>
    obtain ⟨⟨p, w'⟩, hcall, heq⟩ := Option.map_eq_some_iff.mp h
    cases heq
    exact ⟨hs.keymgmtDup hcall, keymgmt_dup_accounted hs hcall⟩
  | keymgmtFree p =>
    simp only [stepCore] at h
    split at h
    · rename_i hp
      obtain ⟨w', hcall, heq⟩ := Option.map_eq_some_iff.mp h
      cases heq
      exact ⟨hs.keymgmtFree hp hcall, keymgmt_free_accounted hs hp hcall⟩
    · cases h

theorem step_next (hs : Held s) {e : CoreCall} {r : Reply} {s' : Core}
    (h : stepCore e s = some (r, s')) : s.world.next ≤ s'.world.next := by
  cases e with
  | signatureNewctx malloc provctx propq =>
    cases h
    cases malloc
    · exact le_rfl
    · exact Nat.le_succ _
  | signature c e =>
    simp only [stepCore] at h
    split at h
    · obtain ⟨⟨r, w'⟩, hcall, heq⟩ := Option.map_eq_some_iff.mp h
      cases heq
      by_cases hdup : ∃ o, e = .dup o
      · obtain ⟨o, rfl⟩ := hdup
        obtain ⟨p, rfl, hdupctx⟩ := call_ctx_cases hcall
        exact (dupctx_next hs.well_formed hdupctx).1
      · exact call_ctx_next (fun o ho => hdup ⟨o, ho⟩) hcall
    · cases h
  | keymgmtNew malloc =>
    cases h
    cases malloc
    · exact le_rfl
    · exact Nat.le_succ _
  | keymgmtDup o src =>
    obtain ⟨⟨p, w'⟩, hcall, heq⟩ := Option.map_eq_some_iff.mp h
    cases heq
    exact (frame_keymgmt_dup hs.well_formed.fresh hcall).2.1
  | keymgmtLoad o reference =>
    obtain ⟨⟨p, w'⟩, hcall, heq⟩ := Option.map_eq_some_iff.mp h
    cases heq
    exact (frame_keymgmt_dup hs.well_formed.fresh hcall).2.1
  | keymgmtFree p =>
    simp only [stepCore] at h
    split at h
    · obtain ⟨w', hcall, heq⟩ := Option.map_eq_some_iff.mp h
      cases heq
      exact (keymgmt_free_next hcall).ge
    · cases h

end Steps

/-- The account of a run so far, whose system calls are `t`. -/
structure Account (w₀ : World) (t : List SysCall) (s : Core) : Prop where
  held : Held s
  trace : s.world.trace = w₀.trace ++ t
  older : ∀ a, 0 < handleLedger.acquired t a → a.handle < s.world.next
  once : ∀ a, handleLedger.acquired t a ≤ 1

section Runs

variable {w₀ : World} {s : Core}

/-- No two calls open the same handle, so an account moves on by what the call does. -/
theorem Account.step {t : List SysCall} (ha : Account w₀ t s) {e : CoreCall} {r : Reply}
    {s' : Core} (h : stepCore e s = some (r, s')) :
    ∃ t', Account w₀ t' s' ∧
      (handleLedger.Holds t (heldBy (Owned s)) →
        (¬ Leaks s e → handleLedger.Holds t' (heldBy (Owned s'))) ∧
        (¬ ¬ Leaks s e → handleLedger.Loses t' (heldBy (Owned s')))) ∧
      (handleLedger.Loses t (heldBy (Owned s)) → handleLedger.Loses t' (heldBy (Owned s'))) := by
  obtain ⟨hheld, added, gained, dropped, htrace, hyoung, htransfer, hloss⟩ :=
    step_accounted ha.held h
  have hnext := step_next ha.held h
  refine ⟨t ++ added, ⟨hheld, ?_, fun a hp => ?_, fun a => ?_⟩, ?_⟩
  · rw [htrace, ha.trace, List.append_assoc]
  · rw [acquired_append] at hp
    rcases Nat.eq_zero_or_pos (handleLedger.acquired added a) with hz | hpos
    · exact (ha.older a (by omega)).trans_le hnext
    · exact (hyoung a hpos).2
  · have hadded := htransfer.acquired_once a
    have hold := ha.once a
    rw [acquired_append]
    rcases Nat.eq_zero_or_pos (handleLedger.acquired added a) with hz | hpos
    · omega
    · have hnew : handleLedger.acquired t a = 0 := Nat.eq_zero_of_not_pos fun hp =>
        Nat.not_le_of_lt (ha.older a hp) (hyoung a hpos).1
      omega
  · rw [← hloss]
    exact htransfer.account

/-- Every context and key object the core got is freed in the end. Then each handle opened
was released exactly once if and only if no call of the run was a leaking one. -/
theorem cng_handles_released_iff (hw : WellFormed w₀) {es : List CoreCall} {rs : List Reply}
    (hrun : run stepCore es (.start w₀) = some (rs, s)) (hctxs : s.ctxs = [])
    (hkeys : s.keys = []) :
    ∃ t, s.world.trace = w₀.trace ++ t ∧
      (handleLedger.ReleasedOnce t ↔
        Along stepCore (fun _ s e _ _ => ¬ Leaks s e) [] es (.start w₀)) := by
  let Good : Core → Prop := fun s =>
    ∃ t, Account w₀ t s ∧ handleLedger.Holds t (heldBy (Owned s))
  let Bad : Core → Prop := fun s =>
    ∃ t, Account w₀ t s ∧ handleLedger.Loses t (heldBy (Owned s))
  have hstart : Good (.start w₀) := by
    refine ⟨[], ⟨start_held hw, (List.append_nil _).symm, fun a hp => ?_, fun a => ?_⟩, fun a => ?_⟩
    · cases hp
    · exact Nat.zero_le 1
    · cases a <;> simp [heldBy, Owned, Core.start]
  have hgood : ∀ e ∈ es, ∀ (hist : List (CoreCall × Reply)) s r s', Good s →
      stepCore e s = some (r, s') →
      (¬ Leaks s e → Good s') ∧ (¬ ¬ Leaks s e → Bad s') := by
    rintro e _ _ s r s' ⟨t, ha, hholds⟩ hstep
    obtain ⟨t', ha', hmove, _⟩ := ha.step hstep
    exact ⟨fun hl => ⟨t', ha', (hmove hholds).1 hl⟩, fun hl => ⟨t', ha', (hmove hholds).2 hl⟩⟩
  have hbad : ∀ e ∈ es, ∀ s r s', Bad s → stepCore e s = some (r, s') → Bad s' := by
    rintro e _ s r s' ⟨t, ha, hloses⟩ hstep
    obtain ⟨t', ha', _, hkeep⟩ := ha.step hstep
    exact ⟨t', ha', hkeep hloses⟩
  have hempty : ∀ a, heldBy (Owned s) a = 0 := by
    intro a
    cases a <;> simp [heldBy, Owned, hctxs, hkeys]
  obtain ⟨hall, hsome⟩ := along_iff_good hgood hbad hstart hrun
  by_cases halong : Along stepCore (fun _ s e _ _ => ¬ Leaks s e) [] es (.start w₀)
  · obtain ⟨t, ha, hholds⟩ := hall halong
    exact ⟨t, ha.trace, iff_of_true ((hholds.releasedOnce_iff ha.once).mpr hempty) halong⟩
  · obtain ⟨t, ha, hloses⟩ := hsome halong
    exact ⟨t, ha.trace, iff_of_false hloses.not_releasedOnce halong⟩

end Runs

def sampleDupCalls : DupCalls := ⟨true, ⟨⟨0, 4⟩, ⟨0, 8⟩, ⟨0, 2⟩, true, ⟨0, 2⟩, 0⟩⟩

def sampleRun : List CoreCall :=
  [.keymgmtLoad sampleDupCalls (some 1), .signatureNewctx true none none,
    .signature 7 (.init sampleInit (some "SHA256") (some 5)), .signature 7 (.update 0 [1]),
    .signature 7 .free, .keymgmtFree 5]

theorem cng_handles_released_iff_sample : ∃ rs s,
    run stepCore sampleRun (.start sampleKeys) = some (rs, s) ∧
    ∃ t, s.world.trace = sampleKeys.trace ++ t ∧ (handleLedger.ReleasedOnce t ↔
      Along stepCore (fun _ s e _ _ => ¬ Leaks s e) [] sampleRun (.start sampleKeys)) :=
  ⟨_, _, rfl, cng_handles_released_iff sample_keys_well_formed
    (show run stepCore sampleRun (.start sampleKeys) = some (_, _) from rfl) rfl rfl⟩

def secondInitRun : List CoreCall :=
  [.signatureNewctx true none none, .signature 5 (.init sampleInit (some "SHA256") (some 1)),
    .signature 5 (.init sampleInit (some "SHA256") (some 1)), .signature 5 .free]

def freedCopyRun : List CoreCall :=
  [.signatureNewctx true none none, .signature 5 (.init sampleInit (some "SHA256") (some 1)),
    .signature 5 (.dup ⟨true, 0, sampleDupCalls⟩), .signature 5 .free, .signature 7 .free]

theorem second_init_and_copy_leak :
    (∃ rs s t, run stepCore secondInitRun (.start sampleKeys) = some (rs, s) ∧ s.ctxs = [] ∧
      s.keys = [] ∧ s.world.trace = sampleKeys.trace ++ t ∧ ¬ handleLedger.ReleasedOnce t) ∧
    ∃ rs s t, run stepCore freedCopyRun (.start sampleKeys) = some (rs, s) ∧ s.ctxs = [] ∧
      s.keys = [] ∧ s.world.trace = sampleKeys.trace ++ t ∧ ¬ handleLedger.ReleasedOnce t := by
  constructor
  · refine ⟨_, _, [.createHash 6, .createHash 7, .destroyHash (some 7)], rfl, rfl, rfl, rfl,
      fun h => ?_⟩
    exact absurd (h (.hash 6) (by decide)).2 (by decide)
  · refine ⟨_, _, [.createHash 6, .duplicateHash 8, .openKey 10, .destroyHash (some 6),
      .destroyHash (some 8)], rfl, rfl, rfl, rfl, fun h => ?_⟩
    exact absurd (h (.key 10) (by decide)).2 (by decide)

end CngHandleLedger
