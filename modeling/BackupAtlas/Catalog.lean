namespace BackupAtlas

namespace Entries

variable {α : Type}

def get? (name : String) : List (String × α) → Option α
  | [] => none
  | (key, value) :: rest => if name = key then some value else get? name rest

def insert (name : String) (value : α) : List (String × α) → List (String × α)
  | [] => [(name, value)]
  | (key, old) :: rest =>
    if name < key then (name, value) :: (key, old) :: rest
    else if name = key then (name, value) :: rest
    else (key, old) :: insert name value rest

def erase (name : String) : List (String × α) → List (String × α)
  | [] => []
  | (key, value) :: rest => if name = key then rest else (key, value) :: erase name rest

def map {β : Type} (f : String → α → β) (entries : List (String × α)) : List (String × β) :=
  entries.map fun (name, value) => (name, f name value)

/-- The names ascend strictly, so none occurs twice. -/
def Ascending (entries : List (String × α)) : Prop := entries.Pairwise (·.1 < ·.1)

theorem mem_of_mem_insert {name : String} {value : α} {entries : List (String × α)}
    {entry : String × α} (member : entry ∈ insert name value entries) :
    entry = (name, value) ∨ entry ∈ entries := by
  induction entries with
  | nil => exact Or.inl (List.mem_singleton.mp member)
  | cons head rest ih =>
    obtain ⟨key, old⟩ := head
    unfold insert at member
    split at member
    · exact List.mem_cons.mp member
    · split at member
      · rcases List.mem_cons.mp member with here | later
        · exact Or.inl here
        · exact Or.inr (List.mem_cons_of_mem _ later)
      · rcases List.mem_cons.mp member with here | later
        · exact Or.inr (here ▸ List.mem_cons_self)
        · exact (ih later).imp id (List.mem_cons_of_mem _)

theorem mem_of_mem_erase {name : String} {entries : List (String × α)} {entry : String × α}
    (member : entry ∈ erase name entries) : entry ∈ entries := by
  induction entries with
  | nil => exact member
  | cons head rest ih =>
    unfold erase at member
    split at member
    · exact List.mem_cons_of_mem _ member
    · rcases List.mem_cons.mp member with here | later
      · exact here ▸ List.mem_cons_self
      · exact List.mem_cons_of_mem _ (ih later)

theorem Ascending.insert {entries : List (String × α)} (ascending : Ascending entries)
    (name : String) (value : α) : Ascending (insert name value entries) := by
  induction entries with
  | nil => exact List.pairwise_singleton _ _
  | cons head rest ih =>
    obtain ⟨key, old⟩ := head
    have tail := List.pairwise_cons.mp ascending
    unfold Entries.insert
    split
    · rename_i less
      refine List.pairwise_cons.mpr ⟨?_, ascending⟩
      intro entry member
      rcases List.mem_cons.mp member with here | later
      · exact here ▸ less
      · exact String.lt_trans less (tail.1 entry later)
    · split
      · rename_i same
        exact List.pairwise_cons.mpr ⟨same ▸ tail.1, tail.2⟩
      · rename_i notLess differs
        refine List.pairwise_cons.mpr ⟨?_, ih tail.2⟩
        intro entry member
        rcases mem_of_mem_insert member with here | later
        · rw [here]
          rcases String.le_total key name with le | le
          · exact Classical.byContradiction fun notLt =>
              differs (String.le_antisymm (String.not_lt.mp notLt) le)
          · exact Classical.byContradiction fun _ =>
              differs (String.le_antisymm le (String.not_lt.mp notLess))
        · exact tail.1 entry later

theorem Ascending.erase {entries : List (String × α)} (ascending : Ascending entries)
    (name : String) : Ascending (erase name entries) := by
  induction entries with
  | nil => exact .nil
  | cons head rest ih =>
    have tail := List.pairwise_cons.mp ascending
    unfold Entries.erase
    split
    · exact tail.2
    · exact List.pairwise_cons.mpr
        ⟨fun entry member => tail.1 entry (mem_of_mem_erase member), ih tail.2⟩

theorem Ascending.map {β : Type} {entries : List (String × α)} (ascending : Ascending entries)
    (f : String → α → β) : Ascending (map f entries) := by
  refine List.pairwise_map.mpr (List.Pairwise.imp ?_ ascending)
  intro _ _ less
  exact less

end Entries

/-- Values under names, in the order of the names. Two catalogs with the same values under the same
names are equal. -/
structure Catalog (α : Type) where
  entries : List (String × α)
  ascending : Entries.Ascending entries

namespace Catalog

variable {α : Type}

theorem ext {a b : Catalog α} (same : a.entries = b.entries) : a = b := by
  cases a
  cases b
  cases same
  rfl

instance [DecidableEq α] : DecidableEq (Catalog α) := fun a b =>
  if same : a.entries = b.entries then .isTrue (ext same)
  else .isFalse fun equal => same (congrArg entries equal)

def empty : Catalog α := ⟨[], .nil⟩

instance : Inhabited (Catalog α) := ⟨empty⟩

def get? (c : Catalog α) (name : String) : Option α := Entries.get? name c.entries

def contains (c : Catalog α) (name : String) : Bool := (c.get? name).isSome

/-- Puts `value` under `name`, in place of what was there. -/
def insert (c : Catalog α) (name : String) (value : α) : Catalog α :=
  ⟨Entries.insert name value c.entries, c.ascending.insert name value⟩

def erase (c : Catalog α) (name : String) : Catalog α :=
  ⟨Entries.erase name c.entries, c.ascending.erase name⟩

def mapNamed {β : Type} (f : String → α → β) (c : Catalog α) : Catalog β :=
  ⟨Entries.map f c.entries, c.ascending.map f⟩

def map {β : Type} (f : α → β) (c : Catalog α) : Catalog β := c.mapNamed fun _ => f

def size (c : Catalog α) : Nat := c.entries.length

def isEmpty (c : Catalog α) : Bool := c.entries.isEmpty

def names (c : Catalog α) : List String := c.entries.map (·.1)

def values (c : Catalog α) : List α := c.entries.map (·.2)

/-- The given entries one after another; of two under one name the later stays. -/
def ofList (entries : List (String × α)) : Catalog α :=
  entries.foldl (fun c (name, value) => c.insert name value) empty

end Catalog
end BackupAtlas
