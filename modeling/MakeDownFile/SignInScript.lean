import MakeDownFile.CallPrograms
import Mathlib.Data.List.Infix
import Mathlib.Data.Rat.Defs

/-! # The Alipay sign-in script

For every account of the phone the script looks for one conversation in the list on the
screen. Its search leaves two variables behind, and neither is touched where the list is
empty. -/
namespace SignInScript

open CallPrograms
open CallPrograms.Prog

structure Box where
  x : ℕ
  y : ℕ
  width : ℕ
  height : ℕ
  deriving DecidableEq, Repr

def Box.centre (b : Box) : ℚ × ℚ := (b.x + b.width / 2, b.y + b.height / 2)

structure Row where
  text : String
  box : Box
  deriving DecidableEq, Repr

inductive Element where
  | account (b : Box)
  | row (r : Row)
  | settings (b : Box)
  deriving DecidableEq, Repr

def Element.box : Element → Box
  | account b => b
  | row r => r.box
  | settings b => b

inductive Button where
  | mine
  | messages
  | notice
  | backButton
  | goBack
  deriving DecidableEq, Repr

inductive Call where
  | findAccounts
  | findConversations
  | waitClick (b : Button)
  | waitSettings
  | tap (e : Element) (point : ℚ × ℚ)
  | press (x y : ℕ)
  | back
  | quit
  | print (text : String) (values : List ℕ)
  deriving DecidableEq, Repr

def Value : Call → Type
  | .findAccounts => List Box
  | .findConversations => List Row
  | .waitSettings => Box
  | _ => Unit

/-- The exceptions of a call. find_elements answers with an empty list where nothing is
found, so that NoSuchElementException is not among them. -/
inductive Trouble where
  | timeout
  | stale
  | other
  deriving DecidableEq, Repr

abbrev Reply (c : Call) : Type := Except Trouble (Value c)

inductive Stop where
  | raised (e : Trouble)
  | indexError
  | nameError
  | systemExit
  deriving DecidableEq, Repr

abbrev Script (α : Type) := Prog Call Reply (Except Stop α)

abbrev ScreenEvent := Event Reply

def done {α : Type} (a : α) : Script α := .ret (.ok a)

def raise {α : Type} (e : Stop) : Script α := .ret (.error e)

def perform (c : Call) : Script (Value c) :=
  .call c fun
    | .ok v => done v
    | .error e => raise (.raised e)

def print (text : String) (values : List ℕ) : Script Unit := perform (.print text values)

def handle (p : Script Unit) (handler : Stop → Script Unit) : Script Unit :=
  p.bind fun
    | .ok _ => done ()
    | .error e => handler e

def onTimeout (p : Script Unit) : Stop → Script Unit
  | .raised .timeout => p
  | e => raise e

def onStale (again p : Script Unit) : Stop → Script Unit
  | .raised .stale => again
  | e => onTimeout p e

def click (b : Button) : Script Unit := perform (.waitClick b)

def tap (e : Element) : Script Unit := perform (.tap e e.box.centre)

/-- Whether '新电途' is in the text of a row. -/
def Wanted (r : Row) : Prop := "新电途".toList <:+: r.text.toList

instance (r : Row) : Decidable (Wanted r) :=
  inferInstanceAs (Decidable ("新电途".toList <:+: r.text.toList))

/-- The loop over the rows, with the variables element and i before it and behind it. -/
def search : List Row → Option Element → Option Row → Option Element × Option Row
  | [], element, i => (element, i)
  | r :: rows, _, _ => if Wanted r then (some (.row r), some r) else search rows none (some r)

/-- The text of the branch for accounts without the conversation. -/
def notFound : String := "当前账号没找到新电途群"

def signIn : Script Unit :=
  (handle (click .notice) (onTimeout (print "超时没找新电涂群签到公告2" []))).proceed fun _ =>
  (perform (.press 544 1293)).proceed fun _ =>
  (perform .back).proceed fun _ =>
  handle (click .backButton) (onTimeout ((perform .back).proceed fun _ =>
    print "超时没找返回到聊天主页" []))

/-- The branch on element. The tap is on i, which is unbound before the first row is seen. -/
def openConversation (element : Option Element) (i : Option Row) : Script Unit :=
  match element with
  | none => print notFound []
  | some _ =>
    match i with
    | none => raise .nameError
    | some r => (tap (.row r)).proceed fun _ => signIn

/-- An account up to its conversation. The result is the variable i. -/
def visit (account : Box) (i : Option Row) : Script (Option Row) :=
  (tap (.account account)).proceed fun _ =>
  (handle (click .messages) (onTimeout (print "超时没找消息2" []))).proceed fun _ =>
  (perform .findConversations).proceed fun rows =>
  let found := search rows (some (.account account)) i
  (openConversation found.1 found.2).proceed fun _ => done found.2

def collect (count : ℕ) : Script Unit :=
  (handle (click .mine) (onTimeout ((print "超时没找到我的1" []).proceed fun _ =>
    (perform .back).proceed fun _ =>
    handle (click .mine) (onTimeout (print "超时没找到我的2" []))))).proceed fun _ =>
  (perform (.press 317 527)).proceed fun _ =>
  (perform (.press 550 743)).proceed fun _ =>
  (handle (click .goBack) (onStale (click .goBack) ((perform .back).proceed fun _ =>
    print "超时没找返回到支付宝会员1" []))).proceed fun _ =>
  print "count:" [count]

def switchAccount : Script (List Box) :=
  (handle (click .goBack) (onStale (click .goBack) ((perform .back).proceed fun _ =>
    print "超时没找返回到我的1" []))).proceed fun _ =>
  (handle ((perform .waitSettings).proceed fun b => tap (.settings b))
    (onTimeout (print "超时没找设置1" []))).proceed fun _ =>
  (perform (.press 544 1554)).proceed fun _ =>
  perform .findAccounts

/-- The while loop by what count is. index keeps the value it got before the loop. -/
def accountLoop (index : ℕ) : ℕ → List Box → Option Row → Script Unit
  | 0, _, _ => perform .quit
  | count + 1, elements, i =>
    match elements[index]? with
    | none => raise .indexError
    | some account =>
      (visit account i).proceed fun i =>
      (collect count).proceed fun _ =>
      if count = 0 then (perform .quit).proceed fun _ => raise .systemExit
      else switchAccount.proceed fun elements => accountLoop index count elements i

def script : Script Unit :=
  (handle (click .mine) (onStale (click .mine) (print "超时没找我的按钮" []))).proceed fun _ =>
  (perform (.press 1000 150)).proceed fun _ =>
  (perform (.press 544 1554)).proceed fun _ =>
  (perform .findAccounts).proceed fun elements =>
  (print "账号列表数量:" [List.length elements]).proceed fun _ =>
  accountLoop (List.length elements - 1) (List.length elements) elements none

/-- What a run shows of the search: the lists, the rows that it sets out to tap, and the branch
for accounts without the conversation. -/
inductive Mark where
  | fetched (rows : List Row)
  | tapped (r : Row) (point : ℚ × ℚ)
  | notFound
  deriving DecidableEq, Repr

def mark : ScreenEvent → Option Mark
  | ⟨.findConversations, .ok rows⟩ => some (.fetched rows)
  | ⟨.tap (.row r) p, _⟩ => some (.tapped r p)
  | ⟨.print text _, _⟩ => if text = notFound then some .notFound else none
  | _ => none

def marks (t : List ScreenEvent) : List Mark := t.filterMap mark

def fetched (ms : List Mark) : List (List Row) :=
  ms.filterMap fun
    | .fetched rows => some rows
    | _ => none

/-- What is to be done with a list: the first row that is wanted is tapped. -/
def decision (rows : List Row) : Mark :=
  match rows.find? (fun r => decide (Wanted r)) with
  | some r => .tapped r r.box.centre
  | none => .notFound

/-- Every list is followed by what is to be done with it, and no other row is tapped. -/
def Right (ms : List Mark) : Prop :=
  ms = (fetched ms).flatMap fun rows => [.fetched rows, decision rows]

instance (ms : List Mark) : Decidable (Right ms) :=
  inferInstanceAs (Decidable (ms = (fetched ms).flatMap fun rows => [.fetched rows, decision rows]))

section Marks

variable {ms ns : List Mark} {t u : List ScreenEvent}

theorem marks_append : marks (t ++ u) = marks t ++ marks u := List.filterMap_append

theorem fetched_append : fetched (ms ++ ns) = fetched ms ++ fetched ns := List.filterMap_append

/-- Where the first part is right, the second part decides. -/
theorem right_append (h : Right ms) : Right (ms ++ ns) ↔ Right ns := by
  rw [Right, fetched_append, List.flatMap_append, ← h, List.append_cancel_left_eq]
  rfl

theorem fetched_decision (rows : List Row) : fetched [.fetched rows, decision rows] = [rows] := by
  have hno : fetched [decision rows] = [] := by
    rw [decision]
    split <;> rfl
  rw [← List.singleton_append, fetched_append, hno]
  rfl

theorem right_decision (rows : List Row) : Right [.fetched rows, decision rows] := by
  rw [Right, fetched_decision]
  rfl

theorem decision_nil : decision [] = .notFound := rfl

/-- A list without rows needs the branch for accounts without the conversation. -/
theorem not_right_of_next {m : Mark} (hm : m ≠ .notFound) : ¬ Right (.fetched [] :: m :: ms) := by
  intro h
  have hf : fetched (.fetched [] :: m :: ms) = [] :: fetched (m :: ms) := rfl
  rw [Right, hf, List.flatMap_cons, decision_nil] at h
  obtain ⟨rfl, -⟩ := List.cons.inj (List.cons.inj h).2
  exact hm rfl

theorem not_right_of_end : ¬ Right [.fetched []] := by
  decide

end Marks

def Exits {α : Type} : Option (Except Stop α) → Prop
  | some (.error .systemExit) => True
  | _ => False

def Unmarked : Call → Prop
  | .findConversations => False
  | .tap (.row _) _ => False
  | .print text _ => text ≠ notFound
  | _ => True

def Plain {α : Type} (p : Script α) : Prop := Holds (fun t o => marks t = [] ∧ ¬ Exits o) p

section Plain

variable {α β : Type}

theorem mark_none {c : Call} (hc : Unmarked c) (r : Reply c) : mark ⟨c, r⟩ = none := by
  cases c with
  | findConversations => exact absurd hc id
  | tap e point =>
    cases e with
    | row r => exact absurd hc id
    | account b => rfl
    | settings b => rfl
  | print text values => exact if_neg hc
  | _ => rfl

theorem plain_perform {c : Call} (hc : Unmarked c) : Plain (perform c) := by
  intro r
  have hnone : marks [⟨c, r⟩] = [] := List.filterMap_cons_none (mark_none hc r)
  cases r with
  | ok v => exact ⟨hnone, id⟩
  | error e => exact ⟨hnone, id⟩

theorem plain_proceed {p : Script α} {f : α → Script β} (hp : Plain p) (hf : ∀ a, Plain (f a)) :
    Plain (p.proceed f) := by
  apply holds_proceed hp
  · exact fun t ht => ⟨ht.1, id⟩
  · intro t e ht
    refine ⟨ht.1, fun h => ht.2 ?_⟩
    cases e with
    | systemExit => trivial
    | _ => exact h
  · intro t a ht
    refine holds_mono (fun u o hu => ⟨?_, hu.2⟩) (hf a)
    rw [marks_append, ht.1, hu.1, List.append_nil]

theorem plain_handle {p : Script Unit} {handler : Stop → Script Unit} (hp : Plain p)
    (hh : ∀ e, ¬ Exits (some (.error e : Except Stop Unit)) → Plain (handler e)) :
    Plain (handle p handler) := by
  apply holds_bind hp
  · exact fun t ht => ⟨ht.1, id⟩
  · intro t r ht
    cases r with
    | ok a => exact ⟨by rw [List.append_nil]; exact ht.1, id⟩
    | error e =>
      refine holds_mono (fun u o hu => ⟨?_, hu.2⟩) (hh e ht.2)
      rw [marks_append, ht.1, hu.1, List.append_nil]

theorem plain_onTimeout {p : Script Unit} (hp : Plain p) {e : Stop}
    (he : ¬ Exits (some (.error e : Except Stop Unit))) : Plain (onTimeout p e) := by
  rw [onTimeout.eq_def]
  split
  · exact hp
  · exact ⟨rfl, he⟩

theorem plain_onStale {again p : Script Unit} (hagain : Plain again) (hp : Plain p) {e : Stop}
    (he : ¬ Exits (some (.error e : Except Stop Unit))) : Plain (onStale again p e) := by
  rw [onStale.eq_def]
  split
  · exact hagain
  · exact plain_onTimeout hp he

theorem plain_press (x y : ℕ) : Plain (perform (.press x y)) := plain_perform trivial

theorem plain_back : Plain (perform .back) := plain_perform trivial

theorem plain_click (b : Button) : Plain (click b) := plain_perform trivial

theorem plain_clickOr (b : Button) {p : Script Unit} (hp : Plain p) :
    Plain (handle (click b) (onTimeout p)) :=
  plain_handle (plain_click b) fun _ => plain_onTimeout hp

theorem plain_clickAgain (b : Button) {p : Script Unit} (hp : Plain p) :
    Plain (handle (click b) (onStale (click b) p)) :=
  plain_handle (plain_click b) fun _ => plain_onStale (plain_click b) hp

theorem plain_print {text : String} (h : text ≠ notFound) (values : List ℕ) :
    Plain (print text values) := plain_perform h

/-- Handlers go back, and say so. -/
theorem plain_goBack {text : String} (h : text ≠ notFound) :
    Plain ((perform .back).proceed fun _ => print text []) :=
  plain_proceed plain_back fun _ => plain_print h []

theorem plain_signIn : Plain signIn := by
  apply plain_proceed (plain_clickOr _ (plain_print (by decide) _))
  intro _
  apply plain_proceed (plain_press _ _)
  intro _
  apply plain_proceed plain_back
  intro _
  exact plain_clickOr _ (plain_goBack (by decide))

theorem plain_collect (count : ℕ) : Plain (collect count) := by
  have hretry : Plain ((print "超时没找到我的1" []).proceed fun _ =>
      (perform .back).proceed fun _ =>
      handle (click .mine) (onTimeout (print "超时没找到我的2" []))) := by
    apply plain_proceed (plain_print (by decide) _)
    intro _
    apply plain_proceed plain_back
    intro _
    exact plain_clickOr _ (plain_print (by decide) _)
  apply plain_proceed (plain_clickOr _ hretry)
  intro _
  apply plain_proceed (plain_press _ _)
  intro _
  apply plain_proceed (plain_press _ _)
  intro _
  apply plain_proceed (plain_clickAgain _ (plain_goBack (by decide)))
  intro _
  exact plain_print (by decide) _

theorem plain_switchAccount : Plain switchAccount := by
  apply plain_proceed (plain_clickAgain _ (plain_goBack (by decide)))
  intro _
  have hsettings : Plain ((perform .waitSettings).proceed fun b => tap (.settings b)) :=
    plain_proceed (plain_perform trivial) fun _ => plain_perform trivial
  apply plain_proceed
    (plain_handle hsettings fun _ => plain_onTimeout (plain_print (by decide) _))
  intro _
  apply plain_proceed (plain_press _ _)
  intro _
  exact plain_perform trivial

end Plain

/-- Behind a search through a list with rows both variables stand for the first row that is
wanted, or element is None. -/
theorem search_spec {rows : List Row} (h : rows ≠ []) (element : Option Element)
    (i : Option Row) :
    (∃ r, search rows element i = (some (.row r), some r) ∧ decision rows =
      .tapped r r.box.centre) ∨
    (search rows element i).1 = none ∧ decision rows = .notFound := by
  induction rows generalizing element i with
  | nil => exact absurd rfl h
  | cons r rows ih =>
    by_cases hr : Wanted r
    · left
      refine ⟨r, if_pos hr, ?_⟩
      rw [decision, List.find?_cons_of_pos (by simpa using hr)]
    · have hskip : search (r :: rows) element i = search rows none (some r) := if_neg hr
      have hnext : decision (r :: rows) = decision rows := by
        rw [decision, decision, List.find?_cons_of_neg (by simpa using hr)]
      rw [hskip, hnext]
      cases rows with
      | nil => exact Or.inr ⟨rfl, rfl⟩
      | cons r' rows => exact ih (by simp) none (some r)

/-- The ways in which a visit may end. Only a list without rows goes wrong: i is unbound, or it
still stands for a row of an earlier account. -/
inductive Visited {α : Type} : List Mark → Option (Except Stop α) → Prop where
  | cut {o} (hstop : ∀ a, o ≠ some (.ok a)) (ho : ¬ Exits o) : Visited [] o
  | decided {rows o} (hrows : rows ≠ []) (ho : ¬ Exits o) :
      Visited [.fetched rows, decision rows] o
  | unbound : Visited [.fetched []] (some (.error .nameError))
  | stale {r point o} (ho : ¬ Exits o) : Visited [.fetched [], .tapped r point] o

section Visits

variable {α β : Type} {P : List Mark → Option (Except Stop β) → Prop}

theorem holds_perform {c : Call} {f : Value c → Script β}
    {Q : List ScreenEvent → Option (Except Stop β) → Prop}
    (herr : ∀ e, Q [⟨c, .error e⟩] (some (.error (.raised e))))
    (hok : ∀ v, Holds (fun t o => Q (⟨c, .ok v⟩ :: t) o) (f v)) :
    Holds Q ((perform c).proceed f) := by
  intro r
  cases r with
  | ok v => exact hok v
  | error e => exact herr e

theorem holds_plain {p : Script α} {f : α → Script β} (hp : Plain p)
    (hcut : ∀ o, (∀ a, o ≠ some (.ok a)) → ¬ Exits o → P [] o)
    (hf : ∀ a, Holds (fun t o => P (marks t) o) (f a)) :
    Holds (fun t o => P (marks t) o) (p.proceed f) := by
  apply holds_proceed hp
  · intro t ht
    rw [ht.1]
    exact hcut none (fun a h => nomatch h) id
  · intro t e ht
    rw [ht.1]
    refine hcut _ (fun a h => nomatch h) fun h => ht.2 ?_
    cases e with
    | systemExit => trivial
    | _ => exact h
  · intro t a ht
    simp only [marks_append, ht.1, List.nil_append]
    exact hf a

theorem tap_signIn_spec (r : Row) :
    Holds (fun t o => marks t = [.tapped r r.box.centre] ∧ ¬ Exits o)
      ((tap (.row r)).proceed fun _ => signIn) := by
  apply holds_perform
  · exact fun e => ⟨rfl, id⟩
  · intro _
    refine holds_mono (fun t o ht => ⟨?_, ht.2⟩) plain_signIn
    exact congrArg (Mark.tapped r r.box.centre :: ·) ht.1

theorem print_notFound_spec :
    Holds (fun t o => marks t = [.notFound] ∧ ¬ Exits o) (print notFound []) := by
  have hmark : ∀ r : Reply (.print notFound []), marks [⟨.print notFound [], r⟩] = [.notFound] :=
    fun _ => by simp [marks, mark]
  intro r
  cases r with
  | ok v => exact ⟨hmark _, id⟩
  | error e => exact ⟨hmark _, id⟩

theorem open_spec (rows : List Row) (account : Box) (i : Option Row) :
    Holds (fun t o => Visited (.fetched rows :: marks t) o)
      (openConversation (search rows (some (.account account)) i).1
        (search rows (some (.account account)) i).2) := by
  by_cases hrows : rows = []
  · subst hrows
    cases i with
    | none => exact Visited.unbound
    | some r =>
      refine holds_mono (fun t o ht => ?_) (tap_signIn_spec r)
      rw [ht.1]
      exact .stale ht.2
  · rcases search_spec hrows (some (.account account)) i with ⟨r, hfound, hdec⟩ | ⟨hnone, hdec⟩
    · rw [hfound]
      refine holds_mono (fun t o ht => ?_) (tap_signIn_spec r)
      rw [ht.1, ← hdec]
      exact .decided hrows ht.2
    · rw [hnone]
      refine holds_mono (fun t o ht => ?_) print_notFound_spec
      rw [ht.1, ← hdec]
      exact .decided hrows ht.2

theorem visited_fault {ms : List Mark} (h : Visited (α := α) ms none) :
    Visited (α := β) ms none := by
  cases h with
  | cut => exact .cut (fun a h => nomatch h) id
  | decided hrows => exact .decided hrows id
  | stale => exact .stale id

theorem visited_error {ms : List Mark} {e : Stop}
    (h : Visited ms (some (.error e : Except Stop α))) :
    Visited ms (some (.error e : Except Stop β)) := by
  have hexit : Exits (some (.error e : Except Stop β)) →
      Exits (some (.error e : Except Stop α)) := by
    cases e <;> exact id
  cases h with
  | cut hstop ho => exact .cut (fun a h => nomatch h) fun h => ho (hexit h)
  | decided hrows ho => exact .decided hrows fun h => ho (hexit h)
  | unbound => exact .unbound
  | stale ho => exact .stale fun h => ho (hexit h)

theorem visited_ok {ms : List Mark} {a : α} (h : Visited ms (some (.ok a : Except Stop α)))
    (b : β) : Visited ms (some (.ok b : Except Stop β)) := by
  cases h with
  | cut hstop ho => exact absurd rfl (hstop a)
  | decided hrows ho => exact .decided hrows id
  | stale ho => exact .stale id

theorem visit_spec (account : Box) (i : Option Row) :
    Holds (fun t o => Visited (marks t) o) (visit account i) := by
  have htap : Plain (tap (.account account)) := plain_perform trivial
  apply holds_plain htap (fun _ => .cut)
  intro _
  apply holds_plain (plain_clickOr _ (plain_print (by decide) _)) (fun _ => .cut)
  intro _
  apply holds_perform
  · exact fun e => .cut (fun a h => nomatch h) id
  · intro rows
    apply holds_proceed (open_spec rows account i)
    · exact fun t ht => visited_fault ht
    · exact fun t e ht => visited_error ht
    · intro t a ht
      have hgoes := visited_ok ht (search rows (some (.account account)) i).2
      rw [← List.append_nil t] at hgoes
      exact hgoes

end Visits

/-- The marks are right if and only if no list was empty, and exit() is reached behind as many
lists as there are accounts. -/
structure Looped (count : ℕ) (ms : List Mark) (o : Option (Except Stop Unit)) : Prop where
  right : Right ms ↔ [] ∉ fetched ms
  all : Exits o → (fetched ms).length = count

section Loop

variable {count : ℕ} {ms : List Mark} {o : Option (Except Stop Unit)}

theorem looped_nil (h : Exits o → count = 0) : Looped count [] o :=
  ⟨iff_of_true rfl (List.not_mem_nil), fun ho => (h ho).symm⟩

theorem looped_decided {rows : List Row} (hrows : rows ≠ []) (h : Looped count ms o) :
    Looped (count + 1) ([.fetched rows, decision rows] ++ ms) o := by
  have hdec := fetched_decision rows
  refine ⟨?_, fun ho => ?_⟩
  · rw [right_append (right_decision rows), h.right, fetched_append, hdec, List.singleton_append,
      List.mem_cons, not_or]
    exact ⟨fun hno => ⟨fun he => hrows he.symm, hno⟩, fun hno => hno.2⟩
  · rw [fetched_append, hdec, List.length_append, h.all ho]
    exact Nat.add_comm 1 count

/-- A stale row is tapped where the list had none. -/
theorem looped_stale {r : Row} {point : ℚ × ℚ} (h : Looped count ms o) :
    Looped (count + 1) ([.fetched [], .tapped r point] ++ ms) o := by
  refine ⟨iff_of_false (not_right_of_next (by simp)) fun h => h List.mem_cons_self, fun ho => ?_⟩
  rw [fetched_append, List.length_append, h.all ho]
  exact Nat.add_comm 1 count

theorem looped_of_stop (h : Visited ms o) (hstop : ∀ a, o ≠ some (.ok a)) :
    Looped (count + 1) ms o := by
  have hend : ¬ Exits o → Looped count [] o := fun ho => looped_nil fun h => absurd h ho
  cases h with
  | cut hstop ho => exact looped_nil fun h => absurd h ho
  | decided hrows ho => exact looped_decided hrows (hend ho)
  | unbound =>
    refine ⟨iff_of_false not_right_of_end fun h => ?_, fun h => absurd h id⟩
    exact h List.mem_cons_self
  | stale ho => exact looped_stale (hend ho)

theorem account_loop_spec (index count : ℕ) (elements : List Box) (i : Option Row) :
    Holds (fun t o => Looped count (marks t) o) (accountLoop index count elements i) := by
  induction count generalizing elements i with
  | zero =>
    have hquit : Plain (perform .quit) := plain_perform trivial
    refine holds_mono (fun t o ht => ?_) hquit
    rw [ht.1]
    exact looped_nil fun ho => absurd ho ht.2
  | succ count ih =>
    rw [accountLoop]
    cases elements[index]? with
    | none => exact looped_nil fun h => absurd h id
    | some account =>
      -- the rest of the turn leaves no mark, whether or not there is another one
      have hrest : ∀ i, Holds (fun t o => Looped count (marks t) o)
          ((collect count).proceed fun _ =>
            if count = 0 then (perform .quit).proceed fun _ => raise .systemExit
            else switchAccount.proceed fun elements => accountLoop index count elements i) := by
        intro i
        apply holds_plain (plain_collect count) fun o _ ho => looped_nil fun h => absurd h ho
        intro _
        by_cases hlast : count = 0
        · rw [if_pos hlast]
          apply holds_perform
          · exact fun e => looped_nil fun _ => hlast
          · exact fun _ => looped_nil fun _ => hlast
        · rw [if_neg hlast]
          apply holds_plain plain_switchAccount fun o _ ho => looped_nil fun h => absurd h ho
          exact fun elements => ih elements i
      apply holds_proceed (visit_spec account i)
      · exact fun t ht => looped_of_stop (visited_fault ht) fun a h => nomatch h
      · exact fun t e ht => looped_of_stop (visited_error ht) fun a h => nomatch h
      · intro t i ht
        refine holds_mono (fun u o hu => ?_) (hrest i)
        rw [marks_append]
        generalize marks t = ms at ht
        cases ht with
        | cut hstop ho => exact absurd rfl (hstop i)
        | decided hrows ho => exact looped_decided hrows hu
        | stale ho => exact looped_stale hu

/-- The script before the loop leaves no mark. -/
theorem script_spec :
    Holds (fun t _ => Right (marks t) ↔ [] ∉ fetched (marks t)) script := by
  have hgo : ∀ {α : Type} {p : Script α} {f : α → Script Unit}, Plain p →
      (∀ a, Holds (fun t _ => Right (marks t) ↔ [] ∉ fetched (marks t)) (f a)) →
      Holds (fun t _ => Right (marks t) ↔ [] ∉ fetched (marks t)) (p.proceed f) :=
    fun hp hf => holds_plain (P := fun ms _ => Right ms ↔ [] ∉ fetched ms) hp
      (fun _ _ _ => iff_of_true rfl List.not_mem_nil) hf
  have hfind : Plain (perform .findAccounts) := plain_perform trivial
  apply hgo (plain_clickAgain _ (plain_print (by decide) _))
  intro _
  apply hgo (plain_press _ _)
  intro _
  apply hgo (plain_press _ _)
  intro _
  apply hgo hfind
  intro elements
  apply hgo (plain_print (by decide) _)
  intro _
  exact holds_mono (fun t o ht => ht.right) (account_loop_spec _ _ elements none)

/-- In the loop over any accounts the row that is wanted is opened, or none where there is
none, if and only if every list of conversations has a row. A loop that comes to its end has
fetched one list for each account. -/
theorem conversations_opened_iff (elements : List Box) :
    Holds (fun t o => (Right (marks t) ↔ ∀ rows ∈ fetched (marks t), rows ≠ []) ∧
        (Exits o → (fetched (marks t)).length = elements.length))
      (accountLoop (elements.length - 1) elements.length elements none) := by
  have hloop := account_loop_spec (elements.length - 1) elements.length elements none
  refine holds_mono (fun t o ht => ⟨ht.right.trans ?_, ht.all⟩) hloop
  constructor
  · intro hno rows hrows he
    exact hno (he ▸ hrows)
  · intro hall hmem
    exact hall [] hmem rfl

def noConversations (_ : List ScreenEvent) : (c : Call) → Reply c
  | .findConversations => .ok []
  | .findAccounts => .ok [⟨0, 300, 1080, 200⟩]
  | .waitSettings => .ok ⟨960, 100, 80, 100⟩
  | .waitClick _ | .tap _ _ | .press _ _ | .back | .quit | .print _ _ => .ok ()

theorem conversation_unbound_on_empty_list :
    ¬ Holds (fun t _ => Right (marks t)) (accountLoop 0 1 [⟨0, 300, 1080, 200⟩] none) := by
  intro h
  have hright := holds_run h noConversations []
  exact absurd hright (by decide)

end Loop

end SignInScript
