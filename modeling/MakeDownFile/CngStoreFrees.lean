import MakeDownFile.CngStoreLedger
import MakeDownFile.TraceRuns

/-! # What the key cursor frees

When the recursion over certificates reaches the end of the store, it frees on its way
back whatever each certificate left in the handle variable: an acquired handle, one that
the caller must not free, or nothing that was ever written. -/
namespace CngStoreFrees

open CngWorld
open CngKeymgmt
open CngStore
open CngStoreSession
open CngStoreLedger
open TraceRuns

/-- A call may pass `h` to NCryptFreeObject; an unwritten variable may hold anything. -/
def MayFree (h : Handle) : SysCall → Prop
  | .freeObject (some b) => b = h
  | .freeObject none => True
  | _ => False

/-- A non-zero handle that is freed was acquired, is the caller's to free, and has not been
freed before. -/
def SafeFree (hist : List SysCall) (e : SysCall) : Prop :=
  ∀ h, h ≠ 0 → MayFree h e →
    (∃ i, SysCall.acquirePrivateKey i h true ∈ hist) ∧ ∀ e' ∈ hist, ¬ MayFree h e'

/-- All frees in the calls `t` of a session are safe, and none is of the handle that is in
the key object in the end. -/
def SafeFrees (t : List SysCall) (slot : Option KeyData) : Prop :=
  Always SafeFree [] t ∧ ∀ h, h ≠ 0 → ∀ e ∈ t, MayFree h e → slot ≠ some ⟨h⟩

structure Quiet (t : List SysCall) (n : ℕ) : Prop where
  older : ∀ i h f, SysCall.acquirePrivateKey i h f ∈ t → h < n
  no_free : ∀ e ∈ t, ∀ h, ¬ MayFree h e

/-- Some certificate after the last accepted one leaves a handle variable that the caller
must not free, or that was never written. -/
def StrayTail (store : CertStore) (n : ℕ) : Prop :=
  ∃ i, n ≤ i ∧ i < store.length ∧ acceptedFrom store i = [] ∧ ¬ Owned (acquireResult store i)

theorem safe_of_no_free {hist t : List SysCall} (h : ∀ e ∈ t, ∀ b, ¬ MayFree b e) :
    Always SafeFree hist t :=
  always_of_forall fun _ e he b _ hb => absurd hb (h e he b)

theorem Quiet.append {t t' : List SysCall} {n n' : ℕ} (h : Quiet t n) (h' : Quiet t' n')
    (hle : n ≤ n') : Quiet (t ++ t') n' := by
  refine ⟨fun i b f hmem => ?_, fun e hmem b => ?_⟩
  · rcases List.mem_append.mp hmem with hm | hm
    · exact (h.older i b f hm).trans_le hle
    · exact h'.older i b f hm
  · rcases List.mem_append.mp hmem with hm | hm
    · exact h.no_free e hm b
    · exact h'.no_free e hm b

section Visit

variable {store : CertStore} {prev : Option ℕ} {i n : ℕ}

theorem mem_visit_acquire {j : ℕ} {h : Handle} {f : Bool}
    (hm : SysCall.acquirePrivateKey j h f ∈ visit store prev i n) :
    h = n ∧ (acquireResult store i).retval = winTrue ∧
      f = decide ((acquireResult store i).callerMustFree = winTrue) := by
  unfold visit at hm
  split at hm
  · rename_i hret
    simp only [List.mem_cons, reduceCtorEq, List.not_mem_nil, or_false, false_or,
      SysCall.acquirePrivateKey.injEq] at hm
    exact ⟨hm.2.1, hret, hm.2.2⟩
  · simp at hm

theorem visit_no_free : ∀ e ∈ visit store prev i n, ∀ h, ¬ MayFree h e := by
  unfold visit
  split <;> simp [MayFree]

theorem visit_quiet (w : World) : Quiet (visit store prev i w.next)
    (cryptAcquireCertificatePrivateKey store i
      (w.emit (.enumCertificates prev (some i)))).2.next := by
  refine ⟨fun j h f hm => ?_, visit_no_free⟩
  obtain ⟨rfl, hret, _⟩ := mem_visit_acquire hm
  simp [cryptAcquireCertificatePrivateKey, hret]

theorem owned_mem_visit (ho : Owned (acquireResult store i)) :
    SysCall.acquirePrivateKey i n true ∈ visit store prev i n := by
  simp [visit, ho.1, ho.2]

end Visit

structure AdvanceFrees (ctx : StoreCtx) (w : World) (r : Bool × StoreCtx × World)
    (added : List SysCall) : Prop where
  trace : r.2.2.trace = w.trace ++ added
  acquired : ∀ i h f, SysCall.acquirePrivateKey i h f ∈ added → w.next ≤ h ∧ h < r.2.2.next
  found : r.1 = true → ∀ e ∈ added, ∀ h, ¬ MayFree h e
  clean : r.1 = false → ¬ StrayTail ctx.windowsCertificateStore (position ctx.prevKeyCertCtx) →
    (∀ e ∈ added, ∀ h, MayFree h e → w.next ≤ h) ∧
      ∀ hist, Quiet hist w.next → Always SafeFree hist added
  stray : r.1 = false → StrayTail ctx.windowsCertificateStore (position ctx.prevKeyCertCtx) →
    ∀ hist, Quiet hist w.next → ¬ Always SafeFree hist added

theorem stray_tail_step {store : CertStore} {i : ℕ} (hi : i < store.length)
    (hrej : Rejected (acquireResult store i)) (hend : acceptedFrom store (i + 1) = []) :
    StrayTail store i ↔ ¬ Owned (acquireResult store i) ∨ StrayTail store (i + 1) := by
  have hnil : acceptedFrom store i = [] := by
    rw [accepted_from_step hi, if_pos hrej, hend]
  constructor
  · rintro ⟨j, hij, hj, hacc, hown⟩
    rcases Nat.eq_or_lt_of_le hij with rfl | hlt
    · exact Or.inl hown
    · exact Or.inr ⟨j, hlt, hj, hacc, hown⟩
  · rintro (hown | ⟨j, hij, hj, hacc, hown⟩)
    · exact ⟨i, le_rfl, hi, hnil, hown⟩
    · exact ⟨j, Nat.le_of_succ_le hij, hj, hacc, hown⟩

section Unwind

variable {ctx : StoreCtx} {w : World} {i : ℕ} {r : Bool × StoreCtx × World}
  {added hist : List SysCall}

theorem unwind_owned (hq : Quiet hist w.next)
    (ho : Owned (acquireResult ctx.windowsCertificateStore i))
    (hyoung : ∀ e ∈ added, ∀ b, MayFree b e →
      (cryptAcquireCertificatePrivateKey ctx.windowsCertificateStore i
        (w.emit (.enumCertificates ctx.prevKeyCertCtx (some i)))).2.next ≤ b) :
    SafeFree (hist ++ (visit ctx.windowsCertificateStore ctx.prevKeyCertCtx i w.next ++ added))
      (.freeObject (some w.next)) := by
  rintro b _ (rfl : w.next = b)
  refine ⟨⟨i, ?_⟩, fun e he hfree => ?_⟩
  · exact List.mem_append_right _ (List.mem_append_left _ (owned_mem_visit ho))
  · rcases List.mem_append.mp he with he | he
    · exact hq.no_free e he _ hfree
    rcases List.mem_append.mp he with he | he
    · exact visit_no_free e he _ hfree
    · have hlt := (visit_handle _ _ _ (visit_owned _ ctx.prevKeyCertCtx _ w ho)).2
      exact absurd (hyoung e he _ hfree) (Nat.not_le_of_lt hlt)

/-- The calls for an owned certificate are safe around what the rest of the search does. -/
theorem unwind_clean (ho : Owned (acquireResult ctx.windowsCertificateStore i))
    (hyoung : ∀ e ∈ added, ∀ b, MayFree b e →
      (cryptAcquireCertificatePrivateKey ctx.windowsCertificateStore i
        (w.emit (.enumCertificates ctx.prevKeyCertCtx (some i)))).2.next ≤ b)
    (hsafe : ∀ hist, Quiet hist (cryptAcquireCertificatePrivateKey ctx.windowsCertificateStore i
      (w.emit (.enumCertificates ctx.prevKeyCertCtx (some i)))).2.next →
        Always SafeFree hist added) :
    (∀ e ∈ visit ctx.windowsCertificateStore ctx.prevKeyCertCtx i w.next ++ added ++
        [.freeObject (some w.next)], ∀ b, MayFree b e → w.next ≤ b) ∧
      ∀ hist, Quiet hist w.next → Always SafeFree hist
        (visit ctx.windowsCertificateStore ctx.prevKeyCertCtx i w.next ++ added ++
          [.freeObject (some w.next)]) := by
  have hle := visit_next ctx.windowsCertificateStore ctx.prevKeyCertCtx i w
  refine ⟨fun e he b hb => ?_, fun hist hq => ?_⟩
  · rcases List.mem_append.mp he with he | he
    · rcases List.mem_append.mp he with he | he
      · exact absurd hb (visit_no_free e he b)
      · exact hle.trans (hyoung e he b hb)
    · rw [List.mem_singleton.mp he] at hb
      exact le_of_eq hb
  · refine always_append.mpr ⟨always_append.mpr ⟨safe_of_no_free visit_no_free, ?_⟩, ?_, trivial⟩
    · exact hsafe _ (hq.append (visit_quiet w) hle)
    · exact unwind_owned hq ho hyoung

variable (h : AdvanceFrees { ctx with prevKeyCertCtx := some i, privKeyStoreEof := false }
  (cryptAcquireCertificatePrivateKey ctx.windowsCertificateStore i
    (w.emit (.enumCertificates ctx.prevKeyCertCtx (some i)))).2 r added)
include h

theorem rejected_acquired
    (hnext : (cryptAcquireCertificatePrivateKey ctx.windowsCertificateStore i
      (w.emit (.enumCertificates ctx.prevKeyCertCtx (some i)))).2.next ≤ r.2.2.next)
    {j : ℕ} {b : Handle} {f : Bool} (hm : SysCall.acquirePrivateKey j b f ∈
      visit ctx.windowsCertificateStore ctx.prevKeyCertCtx i w.next ++ added) :
    w.next ≤ b ∧ b < r.2.2.next := by
  rcases List.mem_append.mp hm with hm | hm
  · obtain ⟨rfl, _⟩ := mem_visit_acquire hm
    exact ⟨le_rfl, ((visit_quiet w).older j _ _ hm).trans_le hnext⟩
  · obtain ⟨hlow, hhigh⟩ := h.acquired j b f hm
    exact ⟨(visit_next _ _ _ w).trans hlow, hhigh⟩

/-- What any other rejected certificate leaves must not be freed. -/
theorem unwind_stray (hq : Quiet hist w.next) (hw : Fresh w)
    (hnext : (cryptAcquireCertificatePrivateKey ctx.windowsCertificateStore i
      (w.emit (.enumCertificates ctx.prevKeyCertCtx (some i)))).2.next ≤ r.2.2.next)
    (ho : ¬ Owned (acquireResult ctx.windowsCertificateStore i)) :
    ¬ SafeFree (hist ++ (visit ctx.windowsCertificateStore ctx.prevKeyCertCtx i w.next ++ added))
      (.freeObject (cryptAcquireCertificatePrivateKey ctx.windowsCertificateStore i
        (w.emit (.enumCertificates ctx.prevKeyCertCtx (some i)))).1) := by
  have hvisit := visit_next ctx.windowsCertificateStore ctx.prevKeyCertCtx i w
  have hcalls : Quiet (hist ++ visit ctx.windowsCertificateStore ctx.prevKeyCertCtx i w.next)
      (cryptAcquireCertificatePrivateKey ctx.windowsCertificateStore i
        (w.emit (.enumCertificates ctx.prevKeyCertCtx (some i)))).2.next :=
    hq.append (visit_quiet w) hvisit
  intro hsafe
  cases hacq : (cryptAcquireCertificatePrivateKey ctx.windowsCertificateStore i
      (w.emit (.enumCertificates ctx.prevKeyCertCtx (some i)))).1 with
  | none =>
    -- the variable may hold a number that no acquisition has returned
    rw [hacq] at hsafe
    have hpos : r.2.2.next ≠ 0 := (hw.positive.trans_le (hvisit.trans hnext)).ne'
    obtain ⟨⟨j, hmem⟩, _⟩ := hsafe r.2.2.next hpos trivial
    rw [← List.append_assoc] at hmem
    rcases List.mem_append.mp hmem with hm | hm
    · exact absurd (hcalls.older j _ _ hm) (Nat.not_lt_of_le hnext)
    · exact absurd (h.acquired j _ _ hm).2 (Nat.lt_irrefl _)
  | some b =>
    rw [hacq] at hsafe
    obtain ⟨rfl, hlt⟩ := visit_handle _ _ _ hacq
    obtain ⟨⟨j, hmem⟩, _⟩ := hsafe w.next hw.positive.ne' rfl
    rcases List.mem_append.mp hmem with hm | hm
    · exact absurd (hq.older j _ _ hm) (Nat.lt_irrefl _)
    rcases List.mem_append.mp hm with hm | hm
    · obtain ⟨_, hret, hfree⟩ := mem_visit_acquire hm
      exact ho ⟨hret, of_decide_eq_true hfree.symm⟩
    · exact absurd (h.acquired j _ _ hm).1 (Nat.not_le_of_lt hlt)

/-- A search that goes on behind a rejected certificate and finds a key frees nothing. -/
theorem frees_found (hfound : r.1 = true)
    (hnext : (cryptAcquireCertificatePrivateKey ctx.windowsCertificateStore i
      (w.emit (.enumCertificates ctx.prevKeyCertCtx (some i)))).2.next ≤ r.2.2.next) :
    AdvanceFrees ctx w r
      (visit ctx.windowsCertificateStore ctx.prevKeyCertCtx i w.next ++ added) := by
  refine ⟨?_, fun _ _ _ hm => rejected_acquired h hnext hm, ?_, ?_, ?_⟩
  · rw [h.trace, visit_trace, List.append_assoc]
  · intro _ e he
    rcases List.mem_append.mp he with he | he
    · exact visit_no_free e he
    · exact h.found hfound e he
  · intro hfalse
    rw [hfalse] at hfound
    cases hfound
  · intro hfalse
    rw [hfalse] at hfound
    cases hfound

/-- A search that finds none frees what the rejected certificate has left. -/
theorem frees_unwound (hw : Fresh w) (hi : i = position ctx.prevKeyCertCtx)
    (hlt : i < ctx.windowsCertificateStore.length)
    (hrej : Rejected (acquireResult ctx.windowsCertificateStore i))
    (hend : acceptedFrom ctx.windowsCertificateStore (i + 1) = []) (hfalse : r.1 = false)
    (hnext : (cryptAcquireCertificatePrivateKey ctx.windowsCertificateStore i
      (w.emit (.enumCertificates ctx.prevKeyCertCtx (some i)))).2.next ≤ r.2.2.next) :
    AdvanceFrees ctx w (false, r.2.1, r.2.2.freeObject
        (cryptAcquireCertificatePrivateKey ctx.windowsCertificateStore i
          (w.emit (.enumCertificates ctx.prevKeyCertCtx (some i)))).1)
      (visit ctx.windowsCertificateStore ctx.prevKeyCertCtx i w.next ++ added ++
        [.freeObject (cryptAcquireCertificatePrivateKey ctx.windowsCertificateStore i
          (w.emit (.enumCertificates ctx.prevKeyCertCtx (some i)))).1]) := by
  subst hi
  have hstep := stray_tail_step hlt hrej hend
  refine ⟨?_, ?_, ?_, ?_, ?_⟩
  · rw [World.freeObject_trace, h.trace, visit_trace]
    simp only [List.append_assoc]
  · intro j b f hm
    rcases List.mem_append.mp hm with hm | hm
    · exact rejected_acquired h hnext hm
    · cases List.mem_singleton.mp hm
  · intro htrue
    cases htrue
  · intro _ hclean
    obtain ⟨ho, hrest⟩ := not_or.mp (mt hstep.mpr hclean)
    obtain ⟨hyoung, hsafe⟩ := h.clean hfalse hrest
    rw [visit_owned _ _ _ w (not_not.mp ho)]
    exact unwind_clean (not_not.mp ho) hyoung hsafe
  · intro _ hstray hist hq hall
    obtain ⟨hbefore, hlast, _⟩ := always_append.mp hall
    rcases hstep.mp hstray with ho | hrest
    · exact unwind_stray h hq hw hnext ho hlast
    · exact h.stray hfalse hrest _ (hq.append (visit_quiet w) (visit_next _ _ _ w))
        (always_append.mp hbefore).2

end Unwind

theorem advance_frees (ctx : StoreCtx) (w : World) (hw : Fresh w) (hk : ctx.key < w.next) :
    ∃ added, AdvanceFrees ctx w (loadAnotherPrivkeyFromStoreIntoContext ctx w) added := by
  fun_induction loadAnotherPrivkeyFromStoreIntoContext ctx w with
  | case1 ctx w hn =>
    have hlen := next_cert_none.mp hn
    have hno : ¬ StrayTail ctx.windowsCertificateStore (position ctx.prevKeyCertCtx) := by
      rintro ⟨i, hle, hlt, _⟩
      exact absurd (hle.trans_lt hlt) (Nat.not_lt_of_le hlen)
    have hfree : ∀ e ∈ [SysCall.enumCertificates ctx.prevKeyCertCtx none], ∀ h, ¬ MayFree h e := by
      simp [MayFree]
    exact ⟨[.enumCertificates ctx.prevKeyCertCtx none], rfl, by simp, fun _ => hfree,
      fun _ _ => ⟨fun e he h hf => absurd hf (hfree e he h), fun _ _ => safe_of_no_free hfree⟩,
      fun _ hs => absurd hs hno⟩
  | case2 ctx w i hn ctx' acq hrej r hr ih =>
    have hle := visit_next ctx.windowsCertificateStore ctx.prevKeyCertCtx i w
    have hf : Fresh acq.2 := acquire_fresh (emit_fresh hw _)
    obtain ⟨added, hadded⟩ := ih hf (hk.trans_le hle)
    obtain ⟨_, hframe, _⟩ := load_privkey_spec ctx' acq.2 hf (hk.trans_le hle)
    exact ⟨_, frees_found hadded hr hframe.next_le⟩
  | case3 ctx w i hn ctx' acq hrej r hr ih =>
    obtain ⟨rfl, hi⟩ := next_cert_some.mp hn
    have hle := visit_next ctx.windowsCertificateStore ctx.prevKeyCertCtx
      (position ctx.prevKeyCertCtx) w
    have hf : Fresh acq.2 := acquire_fresh (emit_fresh hw _)
    obtain ⟨added, hadded⟩ := ih hf (hk.trans_le hle)
    obtain ⟨_, hframe, hcase⟩ := load_privkey_spec ctx' acq.2 hf (hk.trans_le hle)
    have hend :
        acceptedFrom ctx.windowsCertificateStore (position ctx.prevKeyCertCtx + 1) = [] := by
      rcases hcase with ⟨hend, _⟩ | ⟨_, _, _, htrue, _⟩
      · exact hend
      · exact absurd htrue hr
    have hfalse : r.1 = false := Bool.eq_false_of_not_eq_true hr
    exact ⟨_, frees_unwound hadded hw rfl hi hrej hend hfalse hframe.next_le⟩
  | case4 ctx w i hn ctx' acq hacc =>
    refine ⟨visit ctx.windowsCertificateStore ctx.prevKeyCertCtx i w.next,
      visit_trace _ _ _ _, ?_, fun _ => visit_no_free, fun hfalse => ?_, fun hfalse => ?_⟩
    · intro j b f hm
      obtain ⟨rfl, _⟩ := mem_visit_acquire hm
      exact ⟨le_rfl, (visit_quiet w).older j _ _ hm⟩
    · cases hfalse
    · cases hfalse

theorem safe_frees_append {t u : List SysCall} (hu : ∀ e ∈ u, ∀ h, ¬ MayFree h e)
    (slot : Option KeyData) : SafeFrees (t ++ u) slot ↔ SafeFrees t slot := by
  unfold SafeFrees
  rw [always_append, and_iff_left (safe_of_no_free hu)]
  apply and_congr_right
  intro _
  constructor
  · exact fun hs h h0 e he => hs h h0 e (List.mem_append_left _ he)
  · intro hs h h0 e he hf
    rcases List.mem_append.mp he with he | he
    · exact hs h h0 e he hf
    · exact absurd hf (hu e he h)

theorem Quiet.safe {t : List SysCall} {n : ℕ} (h : Quiet t n) (slot : Option KeyData) :
    SafeFrees t slot :=
  ⟨safe_of_no_free h.no_free, fun b _ e he hf => absurd hf (h.no_free e he b)⟩

/-- Before the key cursor has reached the end nothing was freed; afterwards the frees were
safe unless the store has a stray tail. -/
structure FreesInv (store : CertStore) (key : Addr) (eof : Bool) (t : List SysCall) (w : World) :
    Prop where
  before : eof = false → Quiet t w.next
  after : eof = true → (SafeFrees t (w.keydata key) ↔ ¬ StrayTail store 0)

theorem stray_tail_from {store : CertStore} {i : ℕ} (hacc : ¬ Rejected (acquireResult store i)) :
    StrayTail store (i + 1) ↔ StrayTail store 0 := by
  constructor
  · rintro ⟨j, _, hrest⟩
    exact ⟨j, Nat.zero_le _, hrest⟩
  · rintro ⟨j, _, hj, hend, hown⟩
    refine ⟨j, Nat.lt_of_not_le fun hle => ?_, hj, hend, hown⟩
    have hmem := mem_accepted_from.mpr ⟨hle, hacc⟩
    rw [hend] at hmem
    cases hmem

/-- What an advance of the key cursor does to the frees. -/
theorem frees_inv_advance {ctx : StoreCtx} {w : World} {t : List SysCall} {slot : Handle}
    (hw : Fresh w) (hslot : w.keydata ctx.key = some ⟨slot⟩) (hlt : slot < w.next)
    (htail : StrayTail ctx.windowsCertificateStore (position ctx.prevKeyCertCtx) ↔
      StrayTail ctx.windowsCertificateStore 0) (hq : Quiet t w.next) :
    let k := loadAnotherPrivkeyFromStoreIntoContext ctx w
    ∃ added, k.2.2.trace = w.trace ++ added ∧
      FreesInv ctx.windowsCertificateStore ctx.key k.2.1.privKeyStoreEof (t ++ added) k.2.2 := by
  have hk := hw.keydata_lt hslot
  obtain ⟨added, hadded⟩ := advance_frees ctx w hw hk
  obtain ⟨_, hframe, hcase⟩ := load_privkey_spec ctx w hw hk
  refine ⟨added, hadded.trace, ?_⟩
  rcases hcase with ⟨_, hctx, hfalse, hkd⟩ | ⟨i, _, hctx, htrue, _⟩ <;> rw [hctx]
  · refine ⟨fun h => (by cases h), fun _ => ?_⟩
    rw [hkd, hslot, ← htail]
    constructor
    · intro hsafe hstray
      exact hadded.stray hfalse hstray t hq (always_append.mp hsafe.1).2
    · intro hclean
      obtain ⟨hyoung, hsafe⟩ := hadded.clean hfalse hclean
      refine ⟨always_append.mpr ⟨safe_of_no_free hq.no_free, hsafe t hq⟩, fun h _ e he hf heq => ?_⟩
      cases heq
      rcases List.mem_append.mp he with he | he
      · exact hq.no_free e he _ hf
      · exact absurd (hyoung e he _ hf) (Nat.not_le_of_lt hlt)
  · refine ⟨fun _ => hq.append ⟨?_, hadded.found htrue⟩ hframe.next_le, fun h => by cases h⟩
    exact fun j b f hm => (hadded.acquired j b f hm).2

theorem object_cb_quiet {o : CallbackResult} {s s' : Session} (hs : SessionInv s)
    (h : objectCb o s = some s') : ∃ u, s'.world.trace = s.world.trace ++ u ∧
      Quiet u s'.world.next ∧ s.world.next ≤ s'.world.next := by
  have hquiet : ∀ n, Quiet [] n := fun n =>
    ⟨fun _ _ _ hm => (by cases hm), fun _ hm => (by cases hm)⟩
  obtain ⟨r, w', hw, rfl⟩ := object_cb_cases h
  rcases hw with ⟨_, rfl⟩ | ⟨d, hload⟩
  · exact ⟨[], (List.append_nil _).symm, hquiet _, le_rfl⟩
  rcases keymgmt_dup_cases hs.fresh hload with ⟨_, rfl | rfl⟩ | ⟨_, _, k, _, _, _, _, rfl⟩
  · exact ⟨[], (List.append_nil _).symm, hquiet _, le_rfl⟩
  · exact ⟨[], (List.append_nil _).symm, hquiet _, Nat.le_succ _⟩
  · refine ⟨[.openKey (s.world.next + 1)], rfl, ⟨?_, ?_⟩, ?_⟩
    · simp
    · simp [MayFree]
    · exact (Nat.le_succ _).trans (Nat.le_succ _)

def SessionFrees (w : World) (s : Session) : Prop :=
  ∃ t, s.world.trace = w.trace ++ t ∧
    FreesInv s.ctx.windowsCertificateStore s.ctx.key s.ctx.privKeyStoreEof t s.world

theorem session_frees_load {w : World} {o : CallbackResult} {s s' : Session} {ret : ℤ}
    (hs : SessionInv s) (hf : SessionFrees w s) (h : cngStoreLoad o s = some (ret, s')) :
    SessionFrees w s' := by
  obtain ⟨t, ht, hinv⟩ := hf
  rcases store_load_cases h with ⟨_, rfl⟩ | ⟨i, cert, _, _, rfl⟩ | ⟨s₁, hk, hcb, hs'⟩
  · exact ⟨t, ht, hinv⟩
  · let e := SysCall.enumCertificates (some i) (nextCert s.ctx.windowsCertificateStore (some i))
    have hfree : ∀ x ∈ [e], ∀ b, ¬ MayFree b x := by simp [e, MayFree]
    refine ⟨t ++ [e], ?_, ⟨fun heof => ?_, fun heof => ?_⟩⟩
    · rw [World.emit_trace, ht, List.append_assoc]
    · exact (hinv.before heof).append ⟨by simp [e], hfree⟩ le_rfl
    · rw [safe_frees_append hfree]
      exact hinv.after heof
  · obtain ⟨hs₁, hctx, _⟩ := object_cb_inv hs hcb
    obtain ⟨u, hu, huq, hle⟩ := object_cb_quiet hs hcb
    have hq : Quiet (t ++ u) s₁.world.next := (hinv.before hk).append huq hle
    have htrace : s₁.world.trace = w.trace ++ (t ++ u) := by
      rw [hu, ht, List.append_assoc]
    have heof : s₁.ctx.privKeyStoreEof = false := by rw [hctx, hk]
    rcases hs' with rfl | rfl
    · refine ⟨t ++ u, htrace, ⟨fun _ => hq, fun he => ?_⟩⟩
      rw [heof] at he
      cases he
    · -- the cursor stands on an accepted certificate, whose handle is in the key object
      obtain ⟨i, hi⟩ : ∃ i, s₁.ctx.prevKeyCertCtx = some i := by
        have hsome := hs₁.key_eof
        rw [heof] at hsome
        exact Option.ne_none_iff_exists'.mp fun hn => by simp [hn] at hsome
      obtain ⟨hacc, slot, hslot, _, hkey⟩ := hs₁.key_holds i hi
      have htail : StrayTail s₁.ctx.windowsCertificateStore (position s₁.ctx.prevKeyCertCtx) ↔
          StrayTail s₁.ctx.windowsCertificateStore 0 := by
        rw [hi]
        exact stray_tail_from hacc
      obtain ⟨added, hadded, hfrees⟩ :=
        frees_inv_advance hs₁.fresh hslot (hs₁.fresh.key_lt hkey) htail hq
      obtain ⟨hckey, hcst, _⟩ := load_privkey_ctx hs₁.fresh (hs₁.fresh.keydata_lt hslot)
      refine ⟨t ++ u ++ added, ?_, ?_⟩
      · simp only [hadded, htrace, List.append_assoc]
      · simp only [hckey, hcst]
        exact hfrees

theorem pending_keys_unique {certs certs' : List CertContext} {keys keys' : List ℕ}
    (h : certObjects certs ++ keys.map .key = certObjects certs' ++ keys'.map .key) :
    keys = keys' := by
  induction certs generalizing certs' with
  | nil =>
    cases certs' with
    | nil => exact List.map_injective_iff.mpr (fun _ _ he => StoreObject.key.inj he) h
    | cons c certs' => cases keys <;> cases h
  | cons c certs ih =>
    cases certs' with
    | nil => cases keys' <;> cases h
    | cons c' certs' => exact ih (List.cons.inj h).2

/-- The key cursor has reached the end when every accepted key has been delivered. -/
theorem key_eof_iff {s t : Session} {os : List CallbackResult} (hs : SessionInv s)
    (hp : pending s.ctx = contents s.ctx.windowsCertificateStore) (h : loads s os = some t) :
    t.ctx.privKeyStoreEof = true ↔ (acceptedFrom s.ctx.windowsCertificateStore 0).length ≤
      (os.drop s.ctx.windowsCertificateStore.length).countP fun o => o.privKeyRet ≠ 0 := by
  obtain ⟨t', ht', hinv, hpend⟩ := loads_refine_queue os hs
  cases h.symm.trans ht'
  rw [hp, contents, remaining_eq, pending] at hpend
  have hkeys := pending_keys_unique hpend
  rw [← List.drop_eq_nil_iff, ← hkeys, hinv.key_eof, pendingKeys]
  cases t.ctx.prevKeyCertCtx <;> simp

theorem session_frees_open {o : OpenCalls} {provctx : Option Addr} {uri : Option (List Char)}
    {w w' : World} {ctx : StoreCtx} (hw : Fresh w)
    (h : cngStoreOpen o provctx uri w = some (some ctx, w')) :
    SessionFrees w (Session.start ctx w') := by
  obtain ⟨name, store, _, _, hk⟩ := store_open_cases h
  let c := loadAnotherCertFromStoreIntoContext
    ⟨store, none, false, none, w.next, false, some name⟩ w.addKeydata
  have hkd : c.2.keydata c.1.key = some ⟨0⟩ := Function.update_self _ _ _
  have hf : Fresh c.2 := emit_fresh hw.addKeydata _
  have hq : Quiet [.enumCertificates none (nextCert store none)] c.2.next :=
    ⟨by simp, by simp [MayFree]⟩
  obtain ⟨added, hadded, hfrees⟩ := frees_inv_advance hf hkd hf.positive Iff.rfl hq
  obtain ⟨hckey, hcst, _⟩ := load_privkey_ctx hf (hf.keydata_lt hkd)
  simp only [c, hk] at hadded hfrees hckey hcst
  refine ⟨_, hadded.trans (List.append_assoc _ _ _), ?_⟩
  rw [← hcst, ← hckey] at hfrees
  exact hfrees

/-- During an open and any number of loads only acquired handles are freed, each once and
none that is still in use, exactly when the key cursor has not come to the end of the store
or finds behind the last accepted certificate only ones whose handle is to be freed. -/
theorem cng_store_frees_iff {o : OpenCalls} {provctx : Option Addr} {uri : Option (List Char)}
    {w w' : World} {ctx : StoreCtx} (hw : Fresh w)
    (hopen : cngStoreOpen o provctx uri w = some (some ctx, w')) (os : List CallbackResult) :
    ∃ s t, loads (Session.start ctx w') os = some s ∧ s.world.trace = w.trace ++ t ∧
      (SafeFrees t (s.world.keydata ctx.key) ↔
        ¬ ((acceptedFrom ctx.windowsCertificateStore 0).length ≤
            ((os.drop ctx.windowsCertificateStore.length).countP fun o => o.privKeyRet ≠ 0) ∧
          StrayTail ctx.windowsCertificateStore 0)) := by
  obtain ⟨_, _, _, hs, hp⟩ := store_open_spec hw hopen
  obtain ⟨s, hl, _, hkey, hst, t, ht, hfrees⟩ := loads_invariant
    (P := SessionFrees w) (fun _ _ _ _ hs hf h => session_frees_load hs hf h) os hs
    (session_frees_open hw hopen)
  have heof := key_eof_iff hs hp hl
  change _ ↔ (acceptedFrom ctx.windowsCertificateStore 0).length ≤
    ((os.drop ctx.windowsCertificateStore.length).countP fun o => o.privKeyRet ≠ 0) at heof
  have hkey' : s.ctx.key = ctx.key := hkey
  have hst' : s.ctx.windowsCertificateStore = ctx.windowsCertificateStore := hst
  refine ⟨s, t, hl, ht, ?_⟩
  rw [hkey', hst'] at hfrees
  rw [← heof]
  cases he : s.ctx.privKeyStoreEof with
  | false => simpa using (hfrees.before he).safe _
  | true => simpa using hfrees.after he

theorem cng_store_frees_iff_sample : ∃ ctx w',
    cngStoreOpen sampleOpen (some 0) (some sampleUri) initial = some (some ctx, w') ∧
    ∃ s t, loads (Session.start ctx w') [⟨1, none⟩, ⟨1, none⟩, ⟨1, none⟩] = some s ∧
      s.world.trace = initial.trace ++ t ∧
      (SafeFrees t (s.world.keydata ctx.key) ↔
        ¬ ((acceptedFrom ctx.windowsCertificateStore 0).length ≤
            (([⟨1, none⟩, ⟨1, none⟩, ⟨1, none⟩] : List CallbackResult).drop
              ctx.windowsCertificateStore.length).countP (fun o => o.privKeyRet ≠ 0) ∧
          StrayTail ctx.windowsCertificateStore 0)) :=
  ⟨_, _, rfl, cng_store_frees_iff initial_fresh
    (show cngStoreOpen sampleOpen (some 0) (some sampleUri) initial = some (some _, _) from rfl)
    [⟨1, none⟩, ⟨1, none⟩, ⟨1, none⟩]⟩

def keylessOpen : OpenCalls := ⟨true, true, fun _ => some [⟨[1], ⟨0, ⟨0, [], 0⟩, 0, 0⟩⟩]⟩

/-- Opening it frees a handle variable that was never written. -/
theorem keyless_store_frees_unwritten : ∃ ctx w' t,
    cngStoreOpen keylessOpen (some 0) (some sampleUri) initial = some (some ctx, w') ∧
    w'.trace = initial.trace ++ t ∧ ¬ SafeFrees t (w'.keydata ctx.key) := by
  refine ⟨_, _, [.enumCertificates none (some 0), .enumCertificates none (some 0),
    .enumCertificates (some 0) none, .freeObject none], rfl, rfl, ?_⟩
  rintro ⟨⟨_, _, _, hlast, _⟩, _⟩
  obtain ⟨⟨i, hmem⟩, _⟩ := hlast 1 (by decide) trivial
  simp at hmem

end CngStoreFrees
