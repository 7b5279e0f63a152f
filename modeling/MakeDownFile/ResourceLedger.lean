import Mathlib.Data.List.Count
import Mathlib.Data.List.Flatten

/-! # Resource ledgers over traces

An event may acquire and release resources. The ledger of a trace counts both, so a
resource may be held several times at once. -/
namespace ResourceLedger

structure Ledger (ε α : Type*) where
  acquires : ε → List α
  releases : ε → List α

variable {ε α : Type*} [DecidableEq α] (L : Ledger ε α)

def Ledger.acquired (t : List ε) (a : α) : ℕ := (t.flatMap L.acquires).count a

def Ledger.released (t : List ε) (a : α) : ℕ := (t.flatMap L.releases).count a

def Ledger.Covered (t : List ε) : Prop := ∀ a, L.acquired t a ≤ L.released t a

def Ledger.ReleasedOnce (t : List ε) : Prop :=
  ∀ a, 0 < L.acquired t a → L.acquired t a = 1 ∧ L.released t a = 1

/-- `held` counts what the trace has acquired and not released. -/
def Ledger.Holds (t : List ε) (held : α → ℕ) : Prop :=
  ∀ a, L.acquired t a = L.released t a + held a

@[simp] theorem acquired_nil (a : α) : L.acquired [] a = 0 := rfl
@[simp] theorem released_nil (a : α) : L.released [] a = 0 := rfl

@[simp] theorem acquired_append (s t : List ε) (a : α) :
    L.acquired (s ++ t) a = L.acquired s a + L.acquired t a := by
  simp [Ledger.acquired, List.flatMap_append]

@[simp] theorem released_append (s t : List ε) (a : α) :
    L.released (s ++ t) a = L.released s a + L.released t a := by
  simp [Ledger.released, List.flatMap_append]

@[simp] theorem acquired_singleton (e : ε) (a : α) :
    L.acquired [e] a = (L.acquires e).count a := by
  simp [Ledger.acquired]

@[simp] theorem released_singleton (e : ε) (a : α) :
    L.released [e] a = (L.releases e).count a := by
  simp [Ledger.released]

theorem acquired_pos {t : List ε} {a : α} :
    0 < L.acquired t a ↔ ∃ e ∈ t, a ∈ L.acquires e := by
  rw [Ledger.acquired, List.count_pos_iff, List.mem_flatMap]

variable {L}

/-- A further stretch of trace moves the held resources by what it acquires and releases. -/
theorem Ledger.Holds.extend {t added : List ε} {held held' : α → ℕ} (h : L.Holds t held)
    (hm : ∀ a, held a + L.acquired added a = held' a + L.released added a) :
    L.Holds (t ++ added) held' := by
  intro a
  have ha := h a
  have hb := hm a
  rw [acquired_append, released_append]
  omega

theorem Ledger.Holds.covered_iff {t : List ε} {held : α → ℕ} (h : L.Holds t held) :
    L.Covered t ↔ ∀ a, held a = 0 := by
  constructor
  · intro hc a
    have := h a
    have := hc a
    omega
  · intro hz a
    have := h a
    have := hz a
    omega

/-- With at most one acquisition of each resource, a ledger that holds nothing has
released every resource exactly once. -/
theorem Ledger.Holds.releasedOnce_iff {t : List ε} {held : α → ℕ} (h : L.Holds t held)
    (ho : ∀ a, L.acquired t a ≤ 1) : L.ReleasedOnce t ↔ ∀ a, held a = 0 := by
  rw [← h.covered_iff]
  constructor
  · intro hr a
    rcases Nat.eq_zero_or_pos (L.acquired t a) with hz | hp
    · omega
    · have := hr a hp
      omega
  · intro hc a hp
    have := h a
    have := hc a
    have := ho a
    omega

def Ledger.Loses (L : Ledger ε α) (t : List ε) (held : α → ℕ) : Prop :=
  ∃ a, L.released t a + held a < L.acquired t a

theorem Ledger.Loses.not_releasedOnce {t : List ε} {held : α → ℕ} (h : L.Loses t held) :
    ¬ L.ReleasedOnce t := by
  obtain ⟨a, ha⟩ := h
  intro hr
  have := hr a (by omega)
  omega

/-- A stretch of trace hands resources on: of what is acquired some is gained by an owner, of
what owners drop some is released. -/
structure Ledger.Transfer (L : Ledger ε α) (added : List ε) (owned owned' : α → Prop)
    (gained dropped : List α) : Prop where
  acquired_once : ∀ a, L.acquired added a ≤ 1
  released_once : ∀ a, L.released added a ≤ 1
  unowned : ∀ a, 0 < L.acquired added a → ¬ owned a
  gained_acquired : ∀ a ∈ gained, 0 < L.acquired added a
  dropped_owned : ∀ a ∈ dropped, owned a
  released_dropped : ∀ a, 0 < L.released added a → a ∈ dropped
  owned_iff : ∀ a, owned' a ↔ a ∈ gained ∨ owned a ∧ a ∉ dropped

def Ledger.Lossless (L : Ledger ε α) (added : List ε) (gained dropped : List α) : Prop :=
  (∀ a, 0 < L.acquired added a → a ∈ gained) ∧ ∀ a ∈ dropped, 0 < L.released added a

def heldBy (owned : α → Prop) [DecidablePred owned] (a : α) : ℕ := if owned a then 1 else 0

namespace Ledger.Transfer

variable {added : List ε} {owned owned' : α → Prop} {gained dropped : List α}

theorem idle (h : ∀ a, owned' a ↔ owned a) : L.Transfer [] owned owned' [] [] := by
  constructor <;> simp [h]

theorem closing {e : ε} (hacq : L.acquires e = []) (hrel : L.releases e = dropped)
    (hnodup : dropped.Nodup) (hdrop : ∀ a ∈ dropped, owned a)
    (howned : ∀ a, owned' a ↔ owned a ∧ a ∉ dropped) :
    L.Transfer [e] owned owned' [] dropped ∧ L.Lossless [e] [] dropped := by
  have hreleased : ∀ a, L.released [e] a = dropped.count a := fun a => by
    rw [released_singleton, hrel]
  have hnone : ∀ a, L.acquired [e] a = 0 := fun a => by
    rw [acquired_singleton, hacq, List.count_nil]
  refine ⟨⟨fun a => ?_, fun a => ?_, fun a ha => ?_, fun a ha => ?_, hdrop, fun a ha => ?_,
    fun a => ?_⟩, fun a ha => ?_, fun a ha => ?_⟩
  · rw [hnone a]
    exact Nat.zero_le 1
  · rw [hreleased a]
    exact List.nodup_iff_count.mp hnodup a
  · rw [hnone a] at ha
    cases ha
  · cases ha
  · rw [hreleased a] at ha
    exact List.count_pos_iff.mp ha
  · rw [howned a]
    simp
  · rw [hnone a] at ha
    cases ha
  · rw [hreleased a]
    exact List.count_pos_iff.mpr ha

theorem opening {e : ε} {a : α} (hacq : L.acquires e = [a]) (hrel : L.releases e = [])
    (hun : ¬ owned a) (hdrop : ∀ b ∈ dropped, owned b)
    (howned : ∀ b, owned' b ↔ b ∈ [a] ∨ owned b ∧ b ∉ dropped) :
    L.Transfer [e] owned owned' [a] dropped ∧ (L.Lossless [e] [a] dropped ↔ dropped = []) := by
  have hacquired : ∀ b, 0 < L.acquired [e] b ↔ b = a := fun b => by
    rw [acquired_singleton, hacq, List.count_pos_iff, List.mem_singleton]
  have hnone : ∀ b, L.released [e] b = 0 := fun b => by
    rw [released_singleton, hrel, List.count_nil]
  refine ⟨⟨fun b => ?_, fun b => ?_, fun b hb => ?_, fun b hb => ?_, hdrop, fun b hb => ?_,
    howned⟩, fun hl => ?_, fun hd => ⟨fun b hb => ?_, fun b hb => ?_⟩⟩
  · rw [acquired_singleton, hacq, List.count_singleton]
    split <;> omega
  · rw [hnone b]
    exact Nat.zero_le 1
  · rw [(hacquired b).mp hb]
    exact hun
  · exact (hacquired b).mpr (List.mem_singleton.mp hb)
  · rw [hnone b] at hb
    cases hb
  · refine List.eq_nil_iff_forall_not_mem.mpr fun b hb => ?_
    have := hl.2 b hb
    rw [hnone b] at this
    cases this
  · exact List.mem_singleton.mpr ((hacquired b).mp hb)
  · rw [hd] at hb
    cases hb

theorem losing (hnodup : (added.flatMap L.acquires).Nodup) (hrel : added.flatMap L.releases = [])
    (hun : ∀ a ∈ added.flatMap L.acquires, ¬ owned a)
    (hgained : ∀ a ∈ gained, a ∈ added.flatMap L.acquires)
    (howned : ∀ a, owned' a ↔ a ∈ gained ∨ owned a)
    (hlost : ∃ a ∈ added.flatMap L.acquires, a ∉ gained) :
    L.Transfer added owned owned' gained [] ∧ ¬ L.Lossless added gained [] := by
  have hnone : ∀ a, L.released added a = 0 := fun a => by
    rw [Ledger.released, hrel, List.count_nil]
  refine ⟨⟨List.nodup_iff_count.mp hnodup, fun a => ?_, fun a ha => ?_, fun a ha => ?_,
    fun a ha => ?_, fun a ha => ?_, fun a => ?_⟩, fun hl => ?_⟩
  · rw [hnone a]
    exact Nat.zero_le 1
  · exact hun a (List.count_pos_iff.mp ha)
  · exact List.count_pos_iff.mpr (hgained a ha)
  · cases ha
  · rw [hnone a] at ha
    cases ha
  · rw [howned a]
    simp
  · obtain ⟨a, ha, hng⟩ := hlost
    exact hng (hl.1 a (List.count_pos_iff.mpr ha))

section Account

variable [DecidablePred owned] [DecidablePred owned']

theorem le (h : L.Transfer added owned owned' gained dropped) (a : α) :
    heldBy owned' a + L.released added a ≤ heldBy owned a + L.acquired added a := by
  have hrel := h.released_once a
  have hdrop : 0 < L.released added a → owned a := fun hp =>
    h.dropped_owned a (h.released_dropped a hp)
  unfold heldBy
  by_cases hown' : owned' a
  · rcases (h.owned_iff a).mp hown' with hg | ⟨ho, hnd⟩
    · have hacq := h.gained_acquired a hg
      have hzero : L.released added a = 0 :=
        Nat.eq_zero_of_not_pos fun hp => h.unowned a hacq (hdrop hp)
      rw [if_pos hown']
      omega
    · have hzero : L.released added a = 0 :=
        Nat.eq_zero_of_not_pos fun hp => hnd (h.released_dropped a hp)
      rw [if_pos hown', if_pos ho]
      omega
  · rw [if_neg hown']
    rcases Nat.eq_zero_or_pos (L.released added a) with hz | hp
    · omega
    · rw [if_pos (hdrop hp)]
      omega

theorem eq_of_lossless (h : L.Transfer added owned owned' gained dropped)
    (hl : L.Lossless added gained dropped) (a : α) :
    heldBy owned a + L.acquired added a = heldBy owned' a + L.released added a := by
  refine Nat.le_antisymm ?_ (h.le a)
  have hacq := h.acquired_once a
  unfold heldBy
  by_cases hp : 0 < L.acquired added a
  · rw [if_neg (h.unowned a hp), if_pos ((h.owned_iff a).mpr (Or.inl (hl.1 a hp)))]
    omega
  · by_cases ho : owned a
    · by_cases hd : a ∈ dropped
      · have := hl.2 a hd
        rw [if_pos ho]
        omega
      · rw [if_pos ho, if_pos ((h.owned_iff a).mpr (Or.inr ⟨ho, hd⟩))]
        omega
    · rw [if_neg ho]
      omega

theorem lt_of_not_lossless (h : L.Transfer added owned owned' gained dropped)
    (hl : ¬ L.Lossless added gained dropped) :
    ∃ a, heldBy owned' a + L.released added a < heldBy owned a + L.acquired added a := by
  rcases not_and_or.mp hl with hl | hl
  · -- an acquired resource that nobody gets
    obtain ⟨a, ha⟩ := not_forall.mp hl
    obtain ⟨hacq, hng⟩ := Classical.not_imp.mp ha
    have hno := h.unowned a hacq
    have hno' : ¬ owned' a := fun ho => ((h.owned_iff a).mp ho).elim hng fun ho => hno ho.1
    have hzero : L.released added a = 0 := Nat.eq_zero_of_not_pos fun hp =>
      hno (h.dropped_owned a (h.released_dropped a hp))
    refine ⟨a, ?_⟩
    unfold heldBy
    rw [if_neg hno', if_neg hno]
    omega
  · -- a resource that its owner drops without release
    obtain ⟨a, ha⟩ := not_forall.mp hl
    obtain ⟨hd, hnr⟩ := Classical.not_imp.mp ha
    have ho := h.dropped_owned a hd
    have hno' : ¬ owned' a := fun ho' => ((h.owned_iff a).mp ho').elim
      (fun hg => h.unowned a (h.gained_acquired a hg) ho) fun ho' => ho'.2 hd
    refine ⟨a, ?_⟩
    unfold heldBy
    rw [if_neg hno', if_pos ho]
    omega

/-- A lossless stretch keeps the account, any other loses something, and what is lost stays
lost. -/
theorem account (h : L.Transfer added owned owned' gained dropped) {t : List ε} :
    (L.Holds t (heldBy owned) →
      (L.Lossless added gained dropped → L.Holds (t ++ added) (heldBy owned')) ∧
      (¬ L.Lossless added gained dropped → L.Loses (t ++ added) (heldBy owned'))) ∧
    (L.Loses t (heldBy owned) → L.Loses (t ++ added) (heldBy owned')) := by
  refine ⟨fun ht => ⟨fun hl => ht.extend (h.eq_of_lossless hl), fun hl => ?_⟩, fun ⟨a, ha⟩ => ?_⟩
  · obtain ⟨a, ha⟩ := h.lt_of_not_lossless hl
    refine ⟨a, ?_⟩
    have := ht a
    rw [acquired_append, released_append]
    omega
  · refine ⟨a, ?_⟩
    have := h.le a
    rw [acquired_append, released_append]
    omega

end Account

end Ledger.Transfer

end ResourceLedger
