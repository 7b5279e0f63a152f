import MakeDownFile.CallPrograms
import MakeDownFile.ResourceLedger
import MakeDownFile.TraceRuns

/-! # Programs that hold resources

Calls acquire and release resources and work on those that are held. Some of them have to be
prepared for by others, in an order. -/
namespace HeldResources

open CallPrograms
open CallPrograms.Prog
open ResourceLedger
open TraceRuns

/-- What a call works on, and what has to have happened before it. -/
structure Discipline (C : Type) (R : C → Type) (κ : Type) where
  ledger : Ledger (Event R) κ
  uses : C → List κ
  prepared : List (Event R) → C → Prop
  prepared_mono : ∀ {s t : List (Event R)} {c : C}, s.Sublist t → prepared s c → prepared t c

variable {C : Type} {R : C → Type} {κ α β : Type} [DecidableEq κ] (D : Discipline C R κ)

def Discipline.Live (hist : List (Event R)) (c : C) : Prop :=
  ∀ a ∈ D.uses c, D.ledger.released hist a < D.ledger.acquired hist a

/-- A trace that keeps to the discipline, with what is held after it. -/
structure Discipline.Sound (held : List κ) (t : List (Event R)) : Prop where
  live : Always (fun hist e => D.Live hist e.1) [] t
  prepared : Always (fun hist e => D.prepared hist e.1) [] t
  account : D.ledger.Holds t fun a => held.count a

structure Discipline.Good (Q : List (Event R) → List κ → α → Prop) (t : List (Event R))
    (o : Option α) : Prop where
  live : Always (fun hist e => D.Live hist e.1) [] t
  prepared : Always (fun hist e => D.prepared hist e.1) [] t
  ended : ∀ x, o = some x → ∃ held, D.ledger.Holds t (fun a => held.count a) ∧ Q t held x

/-- A program that ends well behind every trace with these events, in this order, and these
holdings. -/
def Discipline.Safe (Q : List (Event R) → List κ → α → Prop) (facts : List (Event R))
    (held : List κ) (p : Prog C R α) : Prop :=
  ∀ t, facts.Sublist t → D.Sound held t → Holds (fun u o => D.Good Q (t ++ u) o) p

structure Discipline.Gets {ι : Type} (c : C) (q : R c → Option ι) (g : ι → κ) (a : κ) : Prop where
  uses : D.uses c = [a]
  prepared : ∀ facts, D.prepared facts c
  acquires : ∀ r, D.ledger.acquires ⟨c, r⟩ = ((q r).map g).toList
  releases : ∀ r, D.ledger.releases ⟨c, r⟩ = []

structure Discipline.Gives (c : C) (a : κ) : Prop where
  uses : D.uses c = [a]
  prepared : ∀ facts, D.prepared facts c
  acquires : ∀ r, D.ledger.acquires ⟨c, r⟩ = []
  releases : ∀ r, D.ledger.releases ⟨c, r⟩ = [a]

section Safe

variable {D} {Q : List (Event R) → List κ → α → Prop} {facts facts' : List (Event R)}
  {held : List κ} {p : Prog C R α} {c : C} {f : R c → Prog C R α}

theorem safe_mono (h : D.Safe Q facts held p) (hsub : facts.Sublist facts') :
    D.Safe Q facts' held p := fun t ht => h t (hsub.trans ht)

theorem safe_perm {held' : List κ} (hperm : held.Perm held') (h : D.Safe Q facts held p) :
    D.Safe Q facts held' p := by
  intro t ht hs
  refine h t ht ⟨hs.live, hs.prepared, fun a => (hs.account a).trans ?_⟩
  show _ + held'.count a = _ + held.count a
  rw [hperm.count_eq a]

theorem safe_ret {x : α} (h : ∀ t, facts.Sublist t → Q t held x) : D.Safe Q facts held (ret x) := by
  intro t ht hs
  apply holds_ret
  refine ⟨hs.live, hs.prepared, fun y hy => ?_⟩
  cases hy
  exact ⟨held, hs.account, h t ht⟩

theorem safe_fault : D.Safe Q facts held fault := by
  intro t _ hs
  apply holds_fault
  exact ⟨hs.live, hs.prepared, nofun⟩

/-- One call: what it works on is held, it is prepared for, and its replies are safe. -/
theorem safe_call (huses : D.uses c ⊆ held) (hc : D.prepared facts c)
    (hnext : ∀ r, ∃ held', (held ++ D.ledger.acquires ⟨c, r⟩).Perm
      (held' ++ D.ledger.releases ⟨c, r⟩) ∧ D.Safe Q (facts ++ [⟨c, r⟩]) held' (f r)) :
    D.Safe Q facts held (.call c f) := by
  intro t ht hs r
  obtain ⟨held', hperm, hsafe⟩ := hnext r
  have hlive : D.Live t c := fun a ha => by
    have hcount := List.count_pos_iff.mpr (huses ha)
    have hacc : D.ledger.acquired t a = D.ledger.released t a + held.count a := hs.account a
    omega
  have hs' : D.Sound held' (t ++ [⟨c, r⟩]) := by
    refine ⟨always_append.mpr ⟨hs.live, hlive, trivial⟩,
      always_append.mpr ⟨hs.prepared, D.prepared_mono ht hc, trivial⟩,
      hs.account.extend fun a => ?_⟩
    have hcount := hperm.count_eq a
    rw [List.count_append, List.count_append] at hcount
    rw [acquired_singleton, released_singleton]
    exact hcount
  apply holds_mono _ (hsafe _ (ht.append (List.Sublist.refl _)) hs')
  intro u o hu
  rwa [List.append_assoc] at hu

theorem safe_plain (huses : D.uses c ⊆ held) (hc : D.prepared facts c)
    (hacq : ∀ r, D.ledger.acquires ⟨c, r⟩ = []) (hrel : ∀ r, D.ledger.releases ⟨c, r⟩ = [])
    (hnext : ∀ r, D.Safe Q (facts ++ [⟨c, r⟩]) held (f r)) : D.Safe Q facts held (.call c f) :=
  safe_call huses hc fun r => ⟨held, by rw [hacq, hrel], hnext r⟩

theorem safe_get {ι : Type} {g : ι → κ} {q : R c → Option ι} (huses : D.uses c ⊆ held)
    (hc : D.prepared facts c) (hacq : ∀ r, D.ledger.acquires ⟨c, r⟩ = ((q r).map g).toList)
    (hrel : ∀ r, D.ledger.releases ⟨c, r⟩ = [])
    (hnone : ∀ r, q r = none → D.Safe Q (facts ++ [⟨c, r⟩]) held (f r))
    (hsome : ∀ r a, q r = some a → D.Safe Q (facts ++ [⟨c, r⟩]) (g a :: held) (f r)) :
    D.Safe Q facts held (.call c f) := by
  apply safe_call huses hc
  intro r
  rw [hacq, hrel]
  cases hr : q r with
  | none => exact ⟨held, List.Perm.refl _, hnone r hr⟩
  | some a =>
    refine ⟨g a :: held, ?_, hsome r a hr⟩
    rw [List.append_nil]
    exact List.perm_append_singleton _ held

theorem Discipline.Gets.safe {ι : Type} {q : R c → Option ι} {g : ι → κ} {a : κ}
    (h : D.Gets c q g a) (ha : a ∈ held)
    (hnone : ∀ r, q r = none → D.Safe Q (facts ++ [⟨c, r⟩]) held (f r))
    (hsome : ∀ r b, q r = some b → D.Safe Q (facts ++ [⟨c, r⟩]) (g b :: held) (f r)) :
    D.Safe Q facts held (.call c f) := by
  have huses : D.uses c ⊆ held := by
    rw [h.uses]
    exact List.cons_subset.mpr ⟨ha, List.nil_subset held⟩
  exact safe_get huses (h.prepared facts) h.acquires h.releases hnone hsome

theorem Discipline.Gives.safe {a : κ} (h : D.Gives c a)
    (hnext : ∀ r, D.Safe Q facts held (f r)) : D.Safe Q facts (a :: held) (.call c f) := by
  apply safe_call (by rw [h.uses]; exact List.cons_subset_cons a (List.nil_subset held))
    (h.prepared facts)
  intro r
  refine ⟨held, ?_, safe_mono (hnext r) (List.sublist_append_left _ _)⟩
  rw [h.acquires, h.releases, List.append_nil]
  exact (List.perm_append_singleton a held).symm

theorem safe_bind {Q' : List (Event R) → List κ → β → Prop} {g : α → Prog C R β}
    (hp : D.Safe Q facts held p)
    (hg : ∀ t held x, Q t held x → D.Safe Q' t held (g x)) : D.Safe Q' facts held (p >>= g) := by
  intro t ht hs
  apply holds_bind (hp t ht hs)
  · exact fun u hu => ⟨hu.live, hu.prepared, nofun⟩
  · intro u x hu
    obtain ⟨held', hacc, hQ⟩ := hu.ended x rfl
    have hnext := hg (t ++ u) held' x hQ (t ++ u) (List.Sublist.refl _)
      ⟨hu.live, hu.prepared, hacc⟩
    apply holds_mono _ hnext
    intro v o hv
    rwa [List.append_assoc] at hv

theorem safe_run (h : D.Safe Q [] [] p) (env : List (Event R) → (c : C) → R c) :
    D.Good Q (run env [] p).1 (run env [] p).2 :=
  holds_run (h [] (List.nil_sublist _) ⟨trivial, trivial, fun _ => rfl⟩) env []

end Safe

end HeldResources
