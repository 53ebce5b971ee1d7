import Mathlib.Algebra.BigOperators.Group.List.Basic
import Mathlib.Algebra.Group.Defs
import Mathlib.Algebra.GroupWithZero.Nat

namespace BackupAtlas

/-- How entries are told apart and how those with the same key are joined. -/
structure Ledger (α : Type) where
  key : α → Nat
  join : α → α → α
  good : α → Prop
  key_join : ∀ a b, key (join a b) = key a
  good_join : ∀ {a b}, good a → good b → good (join a b)
  comm : ∀ {a b}, good a → good b → key a = key b → join a b = join b a
  assoc : ∀ {a b c}, good a → good b → good c → join (join a b) c = join a (join b c)

namespace Ledger

variable {α : Type} (ledger : Ledger α)

def add (entry : α) : List α → List α
  | [] => [entry]
  | head :: rest =>
    if ledger.key entry < ledger.key head then entry :: head :: rest
    else if ledger.key entry = ledger.key head then ledger.join head entry :: rest
    else head :: add entry rest

def merge (list other : List α) : List α := other.foldl (fun list entry => ledger.add entry list) list

/-- The keys ascend, and every entry is good. -/
structure Normal (list : List α) : Prop where
  ascending : list.Pairwise (ledger.key · < ledger.key ·)
  good : ∀ entry ∈ list, ledger.good entry

def find? (k : Nat) (list : List α) : Option α := list.find? fun entry => decide (ledger.key entry = k)

def both : Option α → Option α → Option α
  | none, b => b
  | a, none => a
  | some a, some b => some (ledger.join a b)

variable {ledger}

theorem Normal.tail {head : α} {rest : List α} (normal : ledger.Normal (head :: rest)) : ledger.Normal rest :=
  ⟨(List.pairwise_cons.mp normal.ascending).2, fun entry member => normal.good entry (List.mem_cons_of_mem _ member)⟩

theorem normal_nil : ledger.Normal [] := ⟨.nil, by simp⟩

theorem find?_cons (k : Nat) (head : α) (rest : List α) :
    ledger.find? k (head :: rest) = if ledger.key head = k then some head else ledger.find? k rest := by
  rw [find?, List.find?_cons]
  by_cases here : ledger.key head = k <;> simp [here, find?]

theorem find?_eq_none_of_lt {k : Nat} {list : List α} (above : ∀ entry ∈ list, k < ledger.key entry) :
    ledger.find? k list = none := by
  rw [find?, List.find?_eq_none]
  intro entry member same
  have less := above entry member
  have equal : ledger.key entry = k := of_decide_eq_true same
  omega

theorem find?_some {k : Nat} {list : List α} {entry : α} (found : ledger.find? k list = some entry) :
    entry ∈ list ∧ ledger.key entry = k :=
  ⟨List.mem_of_find?_eq_some found, of_decide_eq_true
    (List.find?_some (p := fun entry => decide (ledger.key entry = k)) found)⟩

theorem key_of_mem_add {entry other : α} {list : List α} (member : other ∈ ledger.add entry list) :
    ledger.key other = ledger.key entry ∨ ∃ old ∈ list, ledger.key other = ledger.key old := by
  induction list with
  | nil => exact Or.inl (congrArg ledger.key (List.mem_singleton.mp member))
  | cons head rest ih =>
    rw [add] at member
    split at member
    · rcases List.mem_cons.mp member with rfl | old
      · exact Or.inl rfl
      · exact Or.inr ⟨other, old, rfl⟩
    · split at member
      · rcases List.mem_cons.mp member with rfl | old
        · exact Or.inr ⟨head, List.mem_cons_self, ledger.key_join head entry⟩
        · exact Or.inr ⟨other, List.mem_cons_of_mem _ old, rfl⟩
      · rcases List.mem_cons.mp member with rfl | later
        · exact Or.inr ⟨other, List.mem_cons_self, rfl⟩
        · rcases ih later with here | ⟨old, listed, same⟩
          · exact Or.inl here
          · exact Or.inr ⟨old, List.mem_cons_of_mem _ listed, same⟩

theorem Normal.add {entry : α} {list : List α} (normal : ledger.Normal list) (good : ledger.good entry) :
    ledger.Normal (ledger.add entry list) := by
  induction list with
  | nil => exact ⟨List.pairwise_singleton _ _, by simpa [Ledger.add] using good⟩
  | cons head rest ih =>
    obtain ⟨first, _⟩ := List.pairwise_cons.mp normal.ascending
    have goodHead := normal.good head List.mem_cons_self
    rw [Ledger.add]
    split
    · rename_i less
      refine ⟨List.pairwise_cons.mpr ⟨?_, normal.ascending⟩, ?_⟩
      · intro other member
        rcases List.mem_cons.mp member with rfl | later
        · exact less
        · exact Nat.lt_trans less (first other later)
      · intro other member
        rcases List.mem_cons.mp member with rfl | later
        · exact good
        · exact normal.good other later
    · split
      · refine ⟨List.pairwise_cons.mpr ⟨?_, normal.tail.ascending⟩, ?_⟩
        · intro other member
          rw [ledger.key_join]
          exact first other member
        · intro other member
          rcases List.mem_cons.mp member with rfl | later
          · exact ledger.good_join goodHead good
          · exact normal.good other (List.mem_cons_of_mem _ later)
      · rename_i notLess differs
        refine ⟨List.pairwise_cons.mpr ⟨?_, (ih normal.tail).ascending⟩, ?_⟩
        · intro other member
          rcases key_of_mem_add member with here | ⟨old, listed, same⟩
          · omega
          · rw [same]
            exact first old listed
        · intro other member
          rcases List.mem_cons.mp member with rfl | later
          · exact goodHead
          · exact (ih normal.tail).good other later

/-- An entry is joined with the one that has its key, and others stay. -/
theorem find?_add (entry : α) {list : List α} (normal : ledger.Normal list) (k : Nat) :
    ledger.find? k (ledger.add entry list) =
      if ledger.key entry = k then ledger.both (ledger.find? k list) (some entry) else ledger.find? k list := by
  induction list with
  | nil => simp [Ledger.add, find?, both]
  | cons head rest ih =>
    obtain ⟨first, _⟩ := List.pairwise_cons.mp normal.ascending
    rw [Ledger.add]
    split
    · rename_i less
      rw [find?_cons]
      split
      · rename_i here
        rw [find?_eq_none_of_lt, both]
        intro other member
        rcases List.mem_cons.mp member with rfl | later
        · omega
        · have more := first other later
          omega
      · rfl
    · split
      · rename_i same
        rw [find?_cons, ledger.key_join, find?_cons]
        by_cases here : ledger.key head = k
        · simp [here, same, both]
        · simp [here, same]
      · rename_i differs
        rw [find?_cons, find?_cons, ih normal.tail]
        by_cases here : ledger.key head = k
        · have other : ledger.key entry ≠ k := fun same => differs (same.trans here.symm)
          simp [here, other]
        · simp [here]

theorem Normal.find?_tail {head : α} {rest : List α} (normal : ledger.Normal (head :: rest)) (k : Nat) :
    ledger.find? k rest = if ledger.key head = k then none else ledger.find? k (head :: rest) := by
  rw [find?_cons]
  split
  · rename_i here
    refine find?_eq_none_of_lt fun entry member => ?_
    have less := (List.pairwise_cons.mp normal.ascending).1 entry member
    omega
  · rfl

/-- Two ascending lists in which the same is found are the same. -/
theorem Normal.ext {list other : List α} (normal : ledger.Normal list) (also : ledger.Normal other)
    (same : ∀ k, ledger.find? k list = ledger.find? k other) : list = other := by
  induction list generalizing other with
  | nil =>
    cases other with
    | nil => rfl
    | cons b bs =>
      have here := same (ledger.key b)
      rw [find?_cons, if_pos rfl] at here
      exact absurd here (by simp [find?])
  | cons a as ih =>
    have atA := same (ledger.key a)
    rw [find?_cons, if_pos rfl] at atA
    cases other with
    | nil => exact absurd atA (by simp [find?])
    | cons b bs =>
      have atB := same (ledger.key b)
      rw [find?_cons, find?_cons, if_pos rfl] at atB
      rw [find?_cons] at atA
      have keys : ledger.key a = ledger.key b := by
        refine Classical.byContradiction fun differ => ?_
        rw [if_neg (Ne.symm differ)] at atA
        rw [if_neg differ] at atB
        have first := find?_some atA.symm
        have second := find?_some atB
        have less := (List.pairwise_cons.mp also.ascending).1 a first.1
        have more := (List.pairwise_cons.mp normal.ascending).1 b second.1
        omega
      rw [if_pos keys.symm] at atA
      obtain rfl := Option.some.inj atA
      rw [ih normal.tail also.tail fun k => by rw [normal.find?_tail, also.find?_tail, same]]

/-- Ledgers that are in order can be merged into one that is. -/
theorem Normal.merge {list other : List α} (normal : ledger.Normal list) (also : ledger.Normal other) :
    ledger.Normal (ledger.merge list other) := by
  induction other generalizing list with
  | nil => exact normal
  | cons entry other ih => exact ih (normal.add (also.good entry List.mem_cons_self)) also.tail

theorem add_ne_nil (entry : α) (list : List α) : ledger.add entry list ≠ [] := by
  cases list with
  | nil => simp [Ledger.add]
  | cons head rest =>
    rw [Ledger.add]
    split
    · simp
    · split <;> simp

theorem merge_ne_nil {list : List α} (some : list ≠ []) (other : List α) : ledger.merge list other ≠ [] := by
  induction other generalizing list with
  | nil => exact some
  | cons entry other ih => exact ih (add_ne_nil entry list)

/-- What holds of all entries, and is kept by joining, holds when entries are added. -/
theorem Normal.forall_add {holds : α → Prop} {entry : α} {list : List α} (normal : ledger.Normal list)
    (closed : ∀ {a b}, ledger.good a → ledger.good b → holds a → holds b → holds (ledger.join a b))
    (good : ledger.good entry) (here : holds entry) (each : ∀ other ∈ list, holds other) :
    ∀ other ∈ ledger.add entry list, holds other := by
  induction list with
  | nil => simpa [Ledger.add] using here
  | cons head rest ih =>
    have first := each head List.mem_cons_self
    have others := fun other member => each other (List.mem_cons_of_mem head member)
    intro other member
    rw [Ledger.add] at member
    split at member
    · rcases List.mem_cons.mp member with rfl | later
      · exact here
      · exact each other later
    · split at member
      · rcases List.mem_cons.mp member with rfl | later
        · exact closed (normal.good head List.mem_cons_self) good first here
        · exact others other later
      · rcases List.mem_cons.mp member with rfl | later
        · exact first
        · exact ih normal.tail others other later

theorem Normal.forall_merge {holds : α → Prop} {list other : List α} (normal : ledger.Normal list)
    (also : ledger.Normal other)
    (closed : ∀ {a b}, ledger.good a → ledger.good b → holds a → holds b → holds (ledger.join a b))
    (each : ∀ entry ∈ list, holds entry) (others : ∀ entry ∈ other, holds entry) :
    ∀ entry ∈ ledger.merge list other, holds entry := by
  induction other generalizing list with
  | nil => exact each
  | cons entry other ih =>
    have good := also.good entry List.mem_cons_self
    have added := normal.forall_add closed good (others entry List.mem_cons_self) each
    exact ih (normal.add good) also.tail added fun next member => others next (List.mem_cons_of_mem _ member)

/-- A measure that joining does not raise is not raised when entries are added. -/
theorem Normal.sum_add {measure : α → Nat} {entry : α} {list : List α} (normal : ledger.Normal list)
    (joined : ∀ {a b}, ledger.good a → ledger.good b → measure (ledger.join a b) ≤ measure a + measure b)
    (good : ledger.good entry) : ((ledger.add entry list).map measure).sum ≤ measure entry +
    (list.map measure).sum := by
  induction list with
  | nil => simp [Ledger.add]
  | cons head rest ih =>
    rw [Ledger.add]
    split
    · simp
    · split
      · have both := joined (normal.good head List.mem_cons_self) good
        simp only [List.map_cons, List.sum_cons]
        omega
      · have others := ih normal.tail
        simp only [List.map_cons, List.sum_cons]
        omega

/-- Merged ledgers measure no more than both together. -/
theorem Normal.sum_merge {measure : α → Nat} {list other : List α} (normal : ledger.Normal list)
    (also : ledger.Normal other)
    (joined : ∀ {a b}, ledger.good a → ledger.good b → measure (ledger.join a b) ≤ measure a + measure b) :
    ((ledger.merge list other).map measure).sum ≤ (list.map measure).sum + (other.map measure).sum := by
  induction other generalizing list with
  | nil => simp [Ledger.merge]
  | cons entry other ih =>
    have good := also.good entry List.mem_cons_self
    have added := normal.sum_add joined good
    have rest := ih (normal.add good) also.tail
    simp only [List.map_cons, List.sum_cons]
    change ((ledger.merge (ledger.add entry list) other).map measure).sum ≤ _
    omega

theorem both_assoc {a b c : Option α} (goodA : ∀ x ∈ a, ledger.good x) (goodB : ∀ x ∈ b, ledger.good x)
    (goodC : ∀ x ∈ c, ledger.good x) : ledger.both (ledger.both a b) c = ledger.both a (ledger.both b c) := by
  cases a with
  | none => rfl
  | some a =>
    cases b with
    | none => rfl
    | some b =>
      cases c with
      | none => rfl
      | some c => exact congrArg some (ledger.assoc (goodA a rfl) (goodB b rfl) (goodC c rfl))

theorem good_of_find? {list : List α} (normal : ledger.Normal list) (k : Nat) :
    ∀ x ∈ ledger.find? k list, ledger.good x := fun x found => normal.good x (find?_some found).1

/-- Merged ledgers have the entries of both, joined where they have the same key. -/
theorem find?_merge {list other : List α} (normal : ledger.Normal list) (also : ledger.Normal other) (k : Nat) :
    ledger.find? k (ledger.merge list other) = ledger.both (ledger.find? k list) (ledger.find? k other) := by
  induction other generalizing list with
  | nil =>
    rw [merge, List.foldl_nil]
    cases ledger.find? k list <;> rfl
  | cons entry other ih =>
    have good := also.good entry List.mem_cons_self
    have rest := ih (normal.add good) also.tail
    rw [merge, List.foldl_cons, ← merge, rest, find?_add entry normal, find?_cons]
    split
    · rename_i here
      rw [both_assoc (good_of_find? normal k) (fun x same => Option.some.inj same ▸ good) (good_of_find? also.tail k),
        also.find?_tail, if_pos here]
      rfl
    · rfl

end Ledger

/-- An ascending list of good entries. -/
structure Book {α : Type} (ledger : Ledger α) where
  entries : List α
  normal : ledger.Normal entries

namespace Book

variable {α : Type} {ledger : Ledger α}

/-- Books with the same entries are the same. -/
theorem ext {a b : Book ledger} (same : ∀ k, ledger.find? k a.entries = ledger.find? k b.entries) : a = b := by
  obtain ⟨entries, normal⟩ := a
  obtain ⟨others, also⟩ := b
  obtain rfl := normal.ext also same
  rfl

instance : Add (Book ledger) := ⟨fun a b => ⟨ledger.merge a.entries b.entries, a.normal.merge b.normal⟩⟩

instance : Zero (Book ledger) := ⟨⟨[], Ledger.normal_nil⟩⟩

theorem find?_plus (a b : Book ledger) (k : Nat) : ledger.find? k (a + b).entries =
    ledger.both (ledger.find? k a.entries) (ledger.find? k b.entries) := Ledger.find?_merge a.normal b.normal k

/-- Books can be added in either order. -/
theorem plus_comm (a b : Book ledger) : a + b = b + a := by
  refine ext fun k => ?_
  rw [find?_plus, find?_plus]
  cases here : ledger.find? k a.entries with
  | none => cases ledger.find? k b.entries <;> rfl
  | some x =>
    cases there : ledger.find? k b.entries with
    | none => rfl
    | some y =>
      have first := Ledger.find?_some here
      have second := Ledger.find?_some there
      exact congrArg some (ledger.comm (a.normal.good x first.1) (b.normal.good y second.1)
        (first.2.trans second.2.symm))

theorem plus_assoc (a b c : Book ledger) : a + b + c = a + (b + c) := by
  refine ext fun k => ?_
  simp only [find?_plus]
  exact Ledger.both_assoc (Ledger.good_of_find? a.normal k) (Ledger.good_of_find? b.normal k)
    (Ledger.good_of_find? c.normal k)

instance : AddCommMonoid (Book ledger) where
  add_assoc := plus_assoc
  zero_add a := ext fun k => by rw [find?_plus]; rfl
  add_zero a := ext fun k => by
    rw [find?_plus]
    cases ledger.find? k a.entries <;> rfl
  add_comm := plus_comm
  nsmul := nsmulRec

def single (entry : α) (good : ledger.good entry) : Book ledger :=
  ⟨[entry], List.pairwise_singleton _ _, by simpa using good⟩

theorem entries_plus (a b : Book ledger) : (a + b).entries = ledger.merge a.entries b.entries := rfl

theorem plus_single (a : Book ledger) (entry : α) (good : ledger.good entry) :
    (a + single entry good).entries = ledger.add entry a.entries := rfl

/-- Entries with the same key become one. -/
theorem single_plus {a b : α} (goodA : ledger.good a) (goodB : ledger.good b) (same : ledger.key b = ledger.key a) :
    single a goodA + single b goodB = single (ledger.join a b) (ledger.good_join goodA goodB) := by
  have joined : ledger.add b [a] = [ledger.join a b] := by
    rw [Ledger.add, if_neg (by omega), if_pos same]
  exact ext fun k => congrArg (ledger.find? k) joined

theorem forall_sum {holds : α → Prop}
    (closed : ∀ {a b}, ledger.good a → ledger.good b → holds a → holds b → holds (ledger.join a b))
    {books : List (Book ledger)} (each : ∀ book ∈ books, ∀ entry ∈ book.entries, holds entry) :
    ∀ entry ∈ books.sum.entries, holds entry := by
  induction books with
  | nil => exact fun entry member => absurd member List.not_mem_nil
  | cons book books ih =>
    rw [List.sum_cons, entries_plus]
    exact book.normal.forall_merge books.sum.normal closed (each book List.mem_cons_self)
      (ih fun next member => each next (List.mem_cons_of_mem _ member))

/-- Books that are added measure no more than all of them together. -/
theorem sum_le {measure : α → Nat}
    (joined : ∀ {a b}, ledger.good a → ledger.good b → measure (ledger.join a b) ≤ measure a + measure b)
    (books : List (Book ledger)) :
    (books.sum.entries.map measure).sum ≤ (books.map fun book => (book.entries.map measure).sum).sum := by
  induction books with
  | nil => exact Nat.le_refl _
  | cons book books ih =>
    have merged := book.normal.sum_merge books.sum.normal joined
    rw [List.sum_cons, entries_plus, List.map_cons, List.sum_cons]
    omega

end Book
end BackupAtlas
