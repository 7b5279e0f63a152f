import Mathlib.Data.List.Forall2
import Mathlib.Data.List.Induction
import Mathlib.Data.List.Sort
import Mathlib.Data.Int.Notation

/-! # Stacks that are kept sorted by a comparison

Elements that compare equal need not be equal. A stack holds one of each class at most, and which
one depends on which came first. -/
namespace SortedStacks

/-- Find, push and sort, for stacks that are sorted by a comparison of their own. -/
structure StackCalls (α : Type) where
  find : List α → α → ℤ
  push : List α → α → List α
  sort : List α → List α

section Stacks

variable {α : Type}

/-- Sorted, and no two elements compare equal. -/
def SortedSet (cmp : α → α → Ordering) (s : List α) : Prop :=
  s.Pairwise fun a b => cmp a b = .lt

def Sorted (cmp : α → α → Ordering) (s : List α) : Prop :=
  s.Pairwise fun a b => (cmp a b).isLE

def Represented (cmp : α → α → Ordering) (s : List α) (x : α) : Prop :=
  ∃ y ∈ s, cmp y x = .eq

structure Documented (cmp : α → α → Ordering) (k : StackCalls α) : Prop where
  find : ∀ s x, Sorted cmp s → (k.find s x = -1 ↔ ¬ Represented cmp s x)
  push : ∀ s x, k.push s x = s ++ [x]
  sort_sorted : ∀ s, Sorted cmp (k.sort s)
  sort_perm : ∀ s, (k.sort s).Perm s

/-- An element is pushed, and the stack sorted again, unless one that compares equal is found. -/
def insertNew (k : StackCalls α) (s : List α) (x : α) : List α :=
  if k.find s x ≠ -1 then s else k.sort (k.push s x)

variable {cmp : α → α → Ordering} {k : StackCalls α} {s s' : List α} {x y : α}

theorem SortedSet.sorted (h : SortedSet cmp s) : Sorted cmp s :=
  h.imp fun hlt => by rw [hlt]; rfl

theorem represented_nil : ¬ Represented cmp [] x := by
  simp [Represented]

theorem represented_cons : Represented cmp (y :: s) x ↔ cmp y x = .eq ∨ Represented cmp s x := by
  simp [Represented]

theorem represented_of_mem [Std.TransCmp cmp] (h : x ∈ s) : Represented cmp s x :=
  ⟨x, h, Std.ReflCmp.compare_self⟩

theorem represented_congr [Std.TransCmp cmp] (h : cmp x y = .eq) :
    Represented cmp s x ↔ Represented cmp s y := by
  constructor
  · rintro ⟨z, hz, hzx⟩
    exact ⟨z, hz, Std.TransCmp.eq_trans hzx h⟩
  · rintro ⟨z, hz, hzy⟩
    exact ⟨z, hz, Std.TransCmp.eq_trans hzy (Std.OrientedCmp.eq_symm h)⟩

theorem sortedSet_of_sorted [Std.TransCmp cmp] (hsorted : Sorted cmp s)
    (hne : s.Pairwise fun a b => cmp a b ≠ .eq) : SortedSet cmp s := by
  refine (hsorted.and hne).imp fun {a b} hab => ?_
  obtain ⟨hle, hab⟩ := hab
  cases hcmp : cmp a b with
  | lt => rfl
  | eq => exact absurd hcmp hab
  | gt => simp [hcmp] at hle

theorem insertNew_present (hk : Documented cmp k) (hs : SortedSet cmp s)
    (h : Represented cmp s x) : insertNew k s x = s := by
  have hfound : k.find s x ≠ -1 := fun hf => (hk.find s x hs.sorted).mp hf h
  rw [insertNew, if_pos hfound]

theorem insertNew_absent (hk : Documented cmp k) (hs : SortedSet cmp s)
    (h : ¬ Represented cmp s x) : (insertNew k s x).Perm (s ++ [x]) := by
  have hfind : k.find s x = -1 := (hk.find s x hs.sorted).mpr h
  rw [insertNew, if_neg (not_not.mpr hfind), hk.push]
  exact hk.sort_perm _

/-- The next search finds the stack as the last one did. -/
theorem sortedSet_insertNew [Std.TransCmp cmp] (hk : Documented cmp k) (hs : SortedSet cmp s) :
    SortedSet cmp (insertNew k s x) := by
  by_cases h : Represented cmp s x
  · rw [insertNew_present hk hs h]
    exact hs
  · have hfind : k.find s x = -1 := (hk.find s x hs.sorted).mpr h
    have hsorted : Sorted cmp (insertNew k s x) := by
      rw [insertNew, if_neg (not_not.mpr hfind)]
      exact hk.sort_sorted _
    have hne : (s ++ [x]).Pairwise fun a b => cmp a b ≠ .eq := by
      rw [List.pairwise_append]
      refine ⟨hs.imp fun hlt heq => ?_, List.pairwise_singleton _ _, fun a ha b hb heq => ?_⟩
      · rw [hlt] at heq
        exact absurd heq (by decide)
      · obtain rfl := List.mem_singleton.mp hb
        exact h ⟨a, ha, heq⟩
    refine sortedSet_of_sorted hsorted ?_
    exact ((insertNew_absent hk hs h).pairwise_iff fun hab hba =>
      hab (Std.OrientedCmp.eq_symm hba)).mpr hne

theorem mem_insertNew (hk : Documented cmp k) (hs : SortedSet cmp s) :
    y ∈ insertNew k s x ↔ y ∈ s ∨ (y = x ∧ ¬ Represented cmp s x) := by
  by_cases h : Represented cmp s x
  · rw [insertNew_present hk hs h]
    simp [h]
  · rw [(insertNew_absent hk hs h).mem_iff]
    simp [h]

theorem represented_insertNew [Std.TransCmp cmp] (hk : Documented cmp k) (hs : SortedSet cmp s) :
    Represented cmp (insertNew k s x) y ↔ Represented cmp s y ∨ cmp x y = .eq := by
  constructor
  · rintro ⟨z, hz, hzy⟩
    rcases (mem_insertNew hk hs).mp hz with hmem | ⟨rfl, -⟩
    · exact Or.inl ⟨z, hmem, hzy⟩
    · exact Or.inr hzy
  · rintro (⟨z, hz, hzy⟩ | hxy)
    · exact ⟨z, (mem_insertNew hk hs).mpr (Or.inl hz), hzy⟩
    · rw [← represented_congr hxy]
      by_cases h : Represented cmp s x
      · rwa [insertNew_present hk hs h]
      · exact represented_of_mem ((mem_insertNew hk hs).mpr (Or.inr ⟨rfl, h⟩))

def insertAll (k : StackCalls α) (s : List α) (xs : List α) : List α := xs.foldl (insertNew k) s

variable {xs xs' : List α}

theorem sortedSet_insertAll [Std.TransCmp cmp] (hk : Documented cmp k) (hs : SortedSet cmp s) :
    SortedSet cmp (insertAll k s xs) := by
  induction xs generalizing s with
  | nil => exact hs
  | cons x xs ih => exact ih (sortedSet_insertNew hk hs)

theorem represented_insertAll [Std.TransCmp cmp] (hk : Documented cmp k)
    (hs : SortedSet cmp s) :
    Represented cmp (insertAll k s xs) y ↔ Represented cmp s y ∨ Represented cmp xs y := by
  induction xs generalizing s with
  | nil => exact (or_iff_left represented_nil).symm
  | cons x xs ih =>
    show Represented cmp (insertAll k (insertNew k s x) xs) y ↔ _
    rw [ih (sortedSet_insertNew hk hs), represented_insertNew hk hs, represented_cons, or_assoc]

/-- An element comes in where it is the first of its class. -/
theorem mem_insertAll [Std.TransCmp cmp] (hk : Documented cmp k) (hs : SortedSet cmp s) :
    y ∈ insertAll k s xs ↔ y ∈ s ∨
      ∃ before behind, xs = before ++ y :: behind ∧
        ¬ Represented cmp s y ∧ ¬ Represented cmp before y := by
  induction xs using List.reverseRecOn with
  | nil => simp [insertAll]
  | append_singleton xs x ih =>
    have hsorted : SortedSet cmp (insertAll k s xs) := sortedSet_insertAll hk hs
    have hsnoc : insertAll k s (xs ++ [x]) = insertNew k (insertAll k s xs) x := by
      simp [insertAll]
    rw [hsnoc, mem_insertNew hk hsorted, ih, represented_insertAll hk hs, not_or, or_assoc]
    apply or_congr_right
    constructor
    · rintro (⟨before, behind, rfl, hs', hbefore⟩ | ⟨rfl, hs', hxs⟩)
      · exact ⟨before, behind ++ [x], by simp, hs', hbefore⟩
      · exact ⟨xs, [], rfl, hs', hxs⟩
    · rintro ⟨before, behind, heq, hs', hbefore⟩
      rcases List.eq_nil_or_concat behind with rfl | ⟨behind, z, rfl⟩
      · obtain ⟨rfl, hx⟩ := List.append_inj' heq rfl
        obtain rfl := List.singleton_inj.mp hx
        exact Or.inr ⟨rfl, hs', hbefore⟩
      · have heq' : xs ++ [x] = (before ++ y :: behind) ++ [z] := by
          simpa using heq
        obtain ⟨rfl, -⟩ := List.append_inj' heq' rfl
        exact Or.inl ⟨before, behind, rfl, hs', hbefore⟩

/-- Nothing behind an element compares equal to what compares equal to it. -/
theorem not_represented_behind [Std.TransCmp cmp] {a : α} (ha : ∀ y ∈ s, cmp a y = .lt)
    (heq : cmp a x = .eq) : ¬ Represented cmp s x := by
  rintro ⟨y, hy, hyx⟩
  have hay : cmp a y = .eq := Std.TransCmp.eq_trans heq (Std.OrientedCmp.eq_symm hyx)
  rw [ha y hy] at hay
  exact absurd hay (by decide)

/-- The smaller of two first elements would not be represented in the other stack. -/
theorem not_represented_before [Std.TransCmp cmp] {a b : α} (hb : ∀ y ∈ s, cmp b y = .lt)
    (hlt : cmp a b = .lt) : ¬ Represented cmp (b :: s) a := by
  rw [represented_cons]
  rintro (heq | ⟨y, hy, heq⟩)
  · rw [Std.OrientedCmp.eq_symm heq] at hlt
    exact absurd hlt (by decide)
  · have hay := Std.TransCmp.lt_trans hlt (hb y hy)
    rw [Std.OrientedCmp.eq_symm heq] at hay
    exact absurd hay (by decide)

theorem first_agree [Std.TransCmp cmp] {a b : α} (ha : ∀ y ∈ s, cmp a y = .lt)
    (hb : ∀ y ∈ s', cmp b y = .lt)
    (h : ∀ x, Represented cmp (a :: s) x ↔ Represented cmp (b :: s') x) : cmp a b = .eq := by
  cases hcmp : cmp a b with
  | eq => rfl
  | lt =>
    refine absurd ((h a).mp ?_) (not_represented_before hb hcmp)
    exact represented_of_mem List.mem_cons_self
  | gt =>
    refine absurd ((h b).mpr ?_) (not_represented_before ha (Std.OrientedCmp.lt_of_gt hcmp))
    exact represented_of_mem List.mem_cons_self

/-- Sorted stacks of the same classes agree element by element. -/
theorem agree_of_represented [Std.TransCmp cmp] (hs : SortedSet cmp s) (hs' : SortedSet cmp s')
    (h : ∀ x, Represented cmp s x ↔ Represented cmp s' x) :
    List.Forall₂ (fun a b => cmp a b = .eq) s s' := by
  induction s generalizing s' with
  | nil =>
    cases s' with
    | nil => exact .nil
    | cons b s' => exact absurd ((h b).mpr (represented_of_mem List.mem_cons_self)) represented_nil
  | cons a s ih =>
    cases s' with
    | nil => exact absurd ((h a).mp (represented_of_mem List.mem_cons_self)) represented_nil
    | cons b s' =>
      rw [SortedSet, List.pairwise_cons] at hs hs'
      have heq := first_agree hs.1 hs'.1 h
      refine .cons heq (ih hs.2 hs'.2 fun x => ?_)
      have hx := h x
      rw [represented_cons, represented_cons, Std.TransCmp.congr_left heq] at hx
      by_cases hb : cmp b x = .eq
      · have ha : cmp a x = .eq := Std.TransCmp.eq_trans heq hb
        exact iff_of_false (not_represented_behind hs.1 ha) (not_represented_behind hs'.1 hb)
      · simpa [hb] using hx

/-- Where the elements are told apart, a sorted stack of them is known by its elements. -/
theorem eq_of_agree (h : List.Forall₂ (fun a b => cmp a b = .eq) s s')
    (hsep : ∀ a ∈ s, ∀ b ∈ s', cmp a b = .eq → a = b) : s = s' := by
  induction h with
  | nil => rfl
  | cons hab _ ih =>
    have htail := ih fun a ha b hb =>
      hsep a (List.mem_cons_of_mem _ ha) b (List.mem_cons_of_mem _ hb)
    rw [hsep _ List.mem_cons_self _ List.mem_cons_self hab, htail]

def linearCalls (cmp : α → α → Ordering) : StackCalls α where
  find s x :=
    match s.findIdx? fun y => cmp y x = .eq with
    | none => -1
    | some i => i
  push s x := s ++ [x]
  sort s := s.insertionSort fun a b => (cmp a b).isLE

theorem documented_linearCalls [Std.TransCmp cmp] : Documented cmp (linearCalls cmp) where
  find s x _ := by
    simp only [linearCalls, Represented]
    cases hfind : s.findIdx? fun y => decide (cmp y x = .eq) with
    | none => simpa using List.findIdx?_eq_none_iff.mp hfind
    | some i =>
      obtain ⟨hlt, heq, -⟩ := List.findIdx?_eq_some_iff_getElem.mp hfind
      have hmem : ∃ y ∈ s, cmp y x = .eq := ⟨s[i], List.getElem_mem hlt, by simpa using heq⟩
      exact iff_of_false (by simp) (not_not.mpr hmem)
  push _ _ := rfl
  sort_sorted s := by
    have htotal : Std.Total fun a b => (cmp a b).isLE = true :=
      ⟨fun a b => by
        cases hcmp : cmp a b with
        | lt => exact Or.inl rfl
        | eq => exact Or.inl rfl
        | gt => exact Or.inr (by rw [Std.OrientedCmp.lt_of_gt hcmp]; rfl)⟩
    have htrans : IsTrans α fun a b => (cmp a b).isLE = true :=
      ⟨fun _ _ _ => Std.TransCmp.isLE_trans⟩
    exact List.pairwise_insertionSort _ s
  sort_perm s := List.perm_insertionSort _ s

end Stacks

end SortedStacks
