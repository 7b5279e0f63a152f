import MakeDownFile.CngStoreSession

/-! # Draining a store

The consumer loads until the end of the store. A load takes one object off the queue,
except that a key stays in front for as long as its callback refuses it. -/
namespace CngStoreDrain

open CngWorld
open CngKeymgmt
open CngStore
open CngStoreSession

/-- `while (!cng_store_eof(s)) cng_store_load(s)` with a bound on the loads. `f n` is what
the core does in load number `n`, and the result counts the loads. -/
def drain (f : ℕ → CallbackResult) : ℕ → ℕ → Session → Option (ℕ × Session)
  | 0, n, s => if cngStoreEof s then some (n, s) else none
  | bound + 1, n, s =>
    if cngStoreEof s then some (n, s)
    else
      match cngStoreLoad (f n) s with
      | none => none
      | some (_, s') => drain f bound (n + 1) s'

def objectCount (store : CertStore) : ℕ := store.length + (acceptedFrom store 0).length

def EachLoadConsumes (f : ℕ → CallbackResult) (s : Session) : Prop :=
  ∀ n t, loads s ((List.range n).map f) = some t → cngStoreEof t = false →
    ∃ ret t', cngStoreLoad (f n) t = some (ret, t') ∧ pending t'.ctx = (pending t.ctx).tail

theorem remaining_append (q : List StoreObject) (os os' : List CallbackResult) :
    remaining q (os ++ os') = remaining (remaining q os) os' := by
  induction os generalizing q with
  | nil => cases q with
    | nil => rfl
    | cons obj q => cases obj <;> rfl
  | cons o os ih =>
    cases q with
    | nil => simp only [remaining_nil]
    | cons obj q =>
      cases obj with
      | cert e => exact ih q
      | key i =>
        rw [List.cons_append, remaining, remaining]
        by_cases hr : o.privKeyRet = 0
        · rw [if_pos hr, if_pos hr, ih]
        · rw [if_neg hr, if_neg hr, ih]

/-- Where no key is refused, loads and objects correspond one to one. -/
theorem remaining_eq_drop {q : List StoreObject} {os : List CallbackResult}
    (h : ∀ (n i : ℕ) (o : CallbackResult), q[n]? = some (StoreObject.key i) → os[n]? = some o →
      o.privKeyRet ≠ 0) :
    remaining q os = q.drop os.length := by
  induction os generalizing q with
  | nil => cases q with
    | nil => rfl
    | cons obj q => cases obj <;> rfl
  | cons o os ih =>
    cases q with
    | nil => rw [remaining_nil, List.drop_nil]
    | cons obj q =>
      have hrest := ih (q := q) fun n i x hq hx => h (n + 1) i x hq hx
      cases obj with
      | cert e => exact hrest
      | key i => rw [remaining, if_neg (h 0 i o rfl rfl), hrest, List.length_cons,
          List.drop_succ_cons]

section Drain

variable {f : ℕ → CallbackResult} {s : Session}

theorem load_refines_queue (hs : SessionInv s) (o : CallbackResult) :
    ∃ ret s', cngStoreLoad o s = some (ret, s') ∧ SessionInv s' ∧
      pending s'.ctx = remaining (pending s.ctx) [o] := by
  obtain ⟨ret, s', hl, hs', _⟩ := store_load_inv hs o
  obtain ⟨t, ht, _, hp⟩ := loads_refine_queue [o] hs
  simp only [loads, hl, Option.some.injEq] at ht
  exact ⟨ret, s', hl, hs', ht ▸ hp⟩

/-- The loop ends within a bound exactly when that many loads empty the queue. -/
theorem drain_iff_remaining (hs : SessionInv s) (bound n : ℕ) :
    (∃ k t, drain f bound n s = some (k, t)) ↔
      remaining (pending s.ctx) ((List.range' n bound).map f) = [] := by
  induction bound generalizing n s with
  | zero =>
    have hnil : remaining (pending s.ctx) [] = pending s.ctx := remaining_eq_drop (by simp)
    rw [List.range'_zero, List.map_nil, hnil, pending_nil_iff hs]
    simp [drain]
  | succ bound ih =>
    rw [List.range'_succ, List.map_cons]
    cases he : cngStoreEof s with
    | true =>
      rw [(pending_nil_iff hs).mpr he, remaining_nil]
      simp [drain, he]
    | false =>
      obtain ⟨ret, s', hl, hs', hp⟩ := load_refines_queue hs (f n)
      have happ := remaining_append (pending s.ctx) [f n] ((List.range' (n + 1) bound).map f)
      rw [List.singleton_append] at happ
      rw [happ, ← hp, ← ih hs' (n + 1)]
      simp [drain, he, hl]

/-- However many loads are allowed, the loop ends when as many of those after the
certificates are accepted as there are keys. -/
theorem drain_ends_iff (hs : SessionInv s) {store : CertStore}
    (hp : pending s.ctx = contents store) (bound : ℕ) :
    (∃ k t, drain f bound 0 s = some (k, t)) ↔
      store.length ≤ bound ∧ (acceptedFrom store 0).length ≤
        (((List.range bound).map f).drop store.length).countP fun o => o.privKeyRet ≠ 0 := by
  rw [drain_iff_remaining hs, hp, contents, remaining_eq_nil, ← List.range_eq_range',
    List.length_map, List.length_range]

/-- A core that refuses every key never gets to the end of a store that has one. -/
theorem drain_stalls (hs : SessionInv s) {store : CertStore}
    (hp : pending s.ctx = contents store) (hkey : acceptedFrom store 0 ≠ [])
    (hf : ∀ n, store.length ≤ n → (f n).privKeyRet = 0) (bound : ℕ) :
    drain f bound 0 s = none := by
  cases hd : drain f bound 0 s with
  | none => rfl
  | some r =>
    obtain ⟨_, hcount⟩ := (drain_ends_iff hs hp bound).mp ⟨r.1, r.2, hd⟩
    have hzero : ((((List.range bound).map f).drop store.length).countP
        fun o => o.privKeyRet ≠ 0) = 0 := by
      refine List.countP_eq_zero.mpr fun x hx => ?_
      rw [← List.map_drop, List.range_eq_range', List.drop_range'] at hx
      obtain ⟨n, hn, rfl⟩ := List.mem_map.mp hx
      have hle : store.length ≤ n := by
        have := (List.mem_range'_1.mp hn).1
        omega
      simp [hf n hle]
    rw [hzero] at hcount
    exact absurd (List.eq_nil_of_length_eq_zero (Nat.le_zero.mp hcount)) hkey

theorem contents_key {store : CertStore} {n i : ℕ} (h : (contents store)[n]? = some (.key i)) :
    store.length ≤ n ∧ n < objectCount store := by
  have hlen : (certObjects store).length = store.length := List.length_map _
  obtain ⟨hlt, hget⟩ := List.getElem?_eq_some_iff.mp h
  refine ⟨Nat.le_of_not_lt fun hn => ?_, ?_⟩
  · rw [contents, List.getElem?_append_left (hlen ▸ hn), certObjects, List.getElem?_map] at h
    obtain ⟨_, _, hc⟩ := Option.map_eq_some_iff.mp h
    cases hc
  · simpa [contents, hlen, objectCount] using hlt

theorem contents_after_certs {store : CertStore} {n : ℕ} (hle : store.length ≤ n)
    (hlt : n < objectCount store) : ∃ i, (contents store)[n]? = some (.key i) := by
  have hlen : (certObjects store).length = store.length := List.length_map _
  have hk : n - store.length < (acceptedFrom store 0).length := by
    unfold objectCount at hlt
    omega
  refine ⟨(acceptedFrom store 0)[n - store.length], ?_⟩
  rw [contents, List.getElem?_append_right (hlen ▸ hle), hlen, List.getElem?_map,
    List.getElem?_eq_getElem hk]
  rfl

/-- As long as no key has been refused, `n` loads have consumed `n` objects. -/
theorem loads_consume (hs : SessionInv s) {store : CertStore}
    (hp : pending s.ctx = contents store) {n : ℕ}
    (hf : ∀ m, store.length ≤ m → m < objectCount store → m < n → (f m).privKeyRet ≠ 0) :
    ∃ t, loads s ((List.range n).map f) = some t ∧ SessionInv t ∧
      pending t.ctx = (contents store).drop n := by
  obtain ⟨t, hl, ht, hq⟩ := loads_refine_queue ((List.range n).map f) hs
  refine ⟨t, hl, ht, ?_⟩
  rw [hq, hp, remaining_eq_drop, List.length_map, List.length_range]
  intro m i o hkey ho
  obtain ⟨hle, hlt⟩ := contents_key hkey
  rw [List.getElem?_map] at ho
  obtain ⟨m', hm', rfl⟩ := Option.map_eq_some_iff.mp ho
  obtain ⟨hmn, hm⟩ := List.getElem?_eq_some_iff.mp hm'
  rw [List.getElem_range] at hm
  subst hm
  exact hf m hle hlt (by simpa using hmn)

theorem each_load_consumes_iff (hs : SessionInv s) {store : CertStore}
    (hp : pending s.ctx = contents store) :
    EachLoadConsumes f s ↔
      ∀ n, store.length ≤ n → n < objectCount store → (f n).privKeyRet ≠ 0 := by
  constructor
  · intro hall n
    -- the loads before the first refusal have brought its key to the front
    induction n using Nat.strong_induction_on with
    | h n ih =>
      intro hle hlt hzero
      obtain ⟨t, hl, ht, hq⟩ := loads_consume hs hp fun m hm hm' hmn => ih m hmn hm hm'
      obtain ⟨i, hi⟩ := contents_after_certs hle hlt
      obtain ⟨hn, hget⟩ := List.getElem?_eq_some_iff.mp hi
      rw [List.drop_eq_getElem_cons hn, hget] at hq
      have heof : cngStoreEof t = false := by
        rw [← Bool.not_eq_true, ← pending_nil_iff ht, hq]
        exact List.cons_ne_nil _ _
      obtain ⟨ret, t', hload, htail⟩ := hall n t hl heof
      obtain ⟨_, _, hload', _, hrem⟩ := load_refines_queue ht (f n)
      cases hload.symm.trans hload'
      rw [hrem, hq, remaining, if_pos hzero] at htail
      have hlen := congrArg List.length htail
      simp [remaining] at hlen
  · intro hf n t hl heof
    obtain ⟨t₀, hl₀, ht, hq⟩ := loads_consume (f := f) (n := n) hs hp
      fun m hm hm' _ => hf m hm hm'
    cases hl.symm.trans hl₀
    obtain ⟨ret, t', hload, _, hrem⟩ := load_refines_queue ht (f n)
    refine ⟨ret, t', hload, ?_⟩
    rw [hrem, remaining_eq_drop, List.length_singleton, List.drop_one]
    intro m i o hkey ho
    obtain ⟨hm, rfl⟩ := List.getElem?_eq_some_iff.mp ho
    obtain rfl : m = 0 := by simpa using hm
    rw [hq, List.getElem?_drop] at hkey
    obtain ⟨hle, hlt⟩ := contents_key hkey
    exact hf n hle hlt

/-- An opened store is drained with one load for each of its objects, and each of them
takes an object, exactly when no key is refused on its first delivery. -/
theorem store_drains_iff {o : OpenCalls} {provctx : Option Addr} {uri : Option (List Char)}
    {w w' : World} {ctx : StoreCtx} (hw : Fresh w)
    (hopen : cngStoreOpen o provctx uri w = some (some ctx, w')) (f : ℕ → CallbackResult) :
    let store := ctx.windowsCertificateStore
    ((∃ k s, drain f (objectCount store) 0 (Session.start ctx w') = some (k, s)) ↔
      ∀ n, store.length ≤ n → n < objectCount store → (f n).privKeyRet ≠ 0) ∧
    (EachLoadConsumes f (Session.start ctx w') ↔
      ∀ n, store.length ≤ n → n < objectCount store → (f n).privKeyRet ≠ 0) := by
  intro store
  obtain ⟨_, _, _, hs, hp⟩ := store_open_spec hw hopen
  refine ⟨?_, each_load_consumes_iff hs hp⟩
  rw [drain_ends_iff hs hp]
  have hcount : (((List.range (objectCount store)).map f).drop store.length).length =
      (acceptedFrom store 0).length := by
    simp [objectCount]
  rw [← hcount]
  constructor
  · rintro ⟨_, hall⟩ n hle hlt
    have hmem : f n ∈ ((List.range (objectCount store)).map f).drop store.length := by
      refine List.mem_iff_getElem?.mpr ⟨n - store.length, ?_⟩
      rw [List.getElem?_drop, List.getElem?_map, Nat.add_sub_cancel' hle,
        List.getElem?_range hlt]
      rfl
    have := List.countP_eq_length.mp (Nat.le_antisymm List.countP_le_length hall) _ hmem
    exact of_decide_eq_true this
  · intro hf
    refine ⟨Nat.le_add_right _ _, (List.countP_eq_length.mpr fun x hx => ?_).ge⟩
    obtain ⟨m, hm⟩ := List.mem_iff_getElem?.mp hx
    rw [List.getElem?_drop, List.getElem?_map] at hm
    obtain ⟨n, hn, rfl⟩ := Option.map_eq_some_iff.mp hm
    obtain ⟨hlt, hget⟩ := List.getElem?_eq_some_iff.mp hn
    rw [List.getElem_range] at hget
    rw [List.length_range] at hlt
    exact decide_eq_true (hf n (by omega) (by omega))

theorem store_drains_iff_sample : ∃ ctx w',
    cngStoreOpen sampleOpen (some 0) (some sampleUri) initial = some (some ctx, w') ∧
    ((∃ k s, drain (fun _ => ⟨1, none⟩) (objectCount ctx.windowsCertificateStore) 0
        (Session.start ctx w') = some (k, s)) ↔
      ∀ n, ctx.windowsCertificateStore.length ≤ n → n < objectCount ctx.windowsCertificateStore →
        ((fun _ => ⟨1, none⟩ : ℕ → CallbackResult) n).privKeyRet ≠ 0) ∧
    (EachLoadConsumes (fun _ => ⟨1, none⟩) (Session.start ctx w') ↔
      ∀ n, ctx.windowsCertificateStore.length ≤ n → n < objectCount ctx.windowsCertificateStore →
        ((fun _ => ⟨1, none⟩ : ℕ → CallbackResult) n).privKeyRet ≠ 0) :=
  ⟨_, _, rfl, store_drains_iff initial_fresh
    (show cngStoreOpen sampleOpen (some 0) (some sampleUri) initial = some (some _, _) from rfl)
    fun _ => ⟨1, none⟩⟩

/-- Two certificates and one key, whose callback always fails: three loads do not do. -/
theorem refused_key_stalls : ∃ ctx w',
    cngStoreOpen sampleOpen (some 0) (some sampleUri) initial = some (some ctx, w') ∧
    ¬ ∃ k s, drain (fun _ => ⟨0, none⟩) (objectCount ctx.windowsCertificateStore) 0
      (Session.start ctx w') = some (k, s) := by
  refine ⟨_, _, rfl, ?_⟩
  rintro ⟨k, s, h⟩
  have hsome := congrArg Option.isSome h
  rw [Option.isSome_some] at hsome
  exact absurd hsome (by decide)

end Drain

end CngStoreDrain
