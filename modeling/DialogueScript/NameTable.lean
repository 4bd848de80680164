/-!
# Tables of named things

A finite map from names to values of one type, kept as a list with strictly
increasing names. Two tables with the same content are therefore equal, and
listing a table gives its names in order.
-/

namespace DialogueScript

/-- A finite map from names, in the order of the names. -/
structure NameTable (α : Type) where
  entries : List (String × α)
  sorted : entries.Pairwise fun a b => a.1 < b.1

namespace NameTable

variable {α : Type}

def empty : NameTable α := ⟨[], .nil⟩

/-- Tables with the same entries are equal. -/
@[ext]
theorem ext {s t : NameTable α} (h : s.entries = t.entries) : s = t := by
  cases s; cases t; cases h; rfl

instance : Inhabited (NameTable α) := ⟨empty⟩

def size (t : NameTable α) : Nat := t.entries.length

def isEmpty (t : NameTable α) : Bool := t.entries.isEmpty

def names (t : NameTable α) : List String := t.entries.map (·.1)

def find? (t : NameTable α) (name : String) : Option α := t.entries.lookup name

@[simp]
theorem find?_empty (name : String) : (empty : NameTable α).find? name = none := rfl

/-- A table holds something under exactly its names. -/
theorem mem_names_iff {t : NameTable α} {name : String} :
    name ∈ t.names ↔ ∃ value, t.find? name = some value := by
  unfold names find?
  induction t.entries with
  | nil => simp
  | cons head rest ih =>
    rw [List.map_cons, List.mem_cons, ih, List.lookup_cons]
    by_cases h : name = head.1
    · simp [h]
    · simp [h, beq_false_of_ne h]

theorem not_mem_names_iff {t : NameTable α} {name : String} :
    name ∉ t.names ↔ t.find? name = none := by
  rw [mem_names_iff, Option.eq_none_iff_forall_ne_some]
  exact not_exists

/-- Puts a value under a name into an ordered list of entries, in the place of
an older value of that name. -/
def insertEntry (name : String) (value : α) : List (String × α) → List (String × α)
  | [] => [(name, value)]
  | (key, old) :: rest =>
    if name < key then (name, value) :: (key, old) :: rest
    else if key < name then (key, old) :: insertEntry name value rest
    else (key, value) :: rest

/-- Every entry after an insertion is the new one or has a name that was there. -/
theorem name_of_mem_insertEntry {name : String} {value : α} {entries : List (String × α)}
    {e : String × α} (h : e ∈ insertEntry name value entries) :
    e.1 = name ∨ ∃ old ∈ entries, e.1 = old.1 := by
  induction entries with
  | nil => simp [insertEntry] at h; simp [h]
  | cons head rest ih =>
    rw [insertEntry] at h
    split at h
    · rcases List.mem_cons.1 h with rfl | h
      · exact .inl rfl
      · exact .inr ⟨e, h, rfl⟩
    split at h
    · rcases List.mem_cons.1 h with rfl | h
      · exact .inr ⟨_, List.mem_cons_self, rfl⟩
      · exact (ih h).imp_right fun ⟨old, ho, he⟩ => ⟨old, List.mem_cons_of_mem _ ho, he⟩
    · rcases List.mem_cons.1 h with rfl | h
      · exact .inr ⟨_, List.mem_cons_self, rfl⟩
      · exact .inr ⟨e, List.mem_cons_of_mem _ h, rfl⟩

/-- Insertion keeps the entries in the order of their names. -/
theorem pairwise_insertEntry (name : String) (value : α) {entries : List (String × α)}
    (h : entries.Pairwise fun a b => a.1 < b.1) :
    (insertEntry name value entries).Pairwise fun a b => a.1 < b.1 := by
  induction entries with
  | nil => simp [insertEntry]
  | cons head rest ih =>
    obtain ⟨hhead, hrest⟩ := List.pairwise_cons.1 h
    rw [insertEntry]
    split
    next hlt =>
      refine List.pairwise_cons.2 ⟨fun e he => ?_, h⟩
      rcases List.mem_cons.1 he with rfl | he
      · exact hlt
      · exact String.lt_trans hlt (hhead e he)
    split
    next _ hlt =>
      refine List.pairwise_cons.2 ⟨fun e he => ?_, ih hrest⟩
      rcases name_of_mem_insertEntry he with he | ⟨old, ho, he⟩
      · exact he ▸ hlt
      · exact he ▸ hhead old ho
    next => exact List.pairwise_cons.2 ⟨hhead, hrest⟩

def insert (t : NameTable α) (name : String) (value : α) : NameTable α :=
  ⟨insertEntry name value t.entries, pairwise_insertEntry name value t.sorted⟩

theorem lookup_insertEntry (name : String) (value : α) (entries : List (String × α))
    (key : String) :
    (insertEntry name value entries).lookup key =
      if key = name then some value else entries.lookup key := by
  induction entries with
  | nil => simp [insertEntry, List.lookup_cons]; grind
  | cons head rest ih =>
    rw [insertEntry]
    split
    · simp [List.lookup_cons]; grind
    split
    next hlt =>
      have := String.lt_irrefl head.1
      simp only [List.lookup_cons, ih]; grind
    next hge hle =>
      have := String.le_antisymm (String.not_lt.1 hge) (String.not_lt.1 hle)
      simp only [List.lookup_cons]; grind

/-- After an insertion the name has the new value, and every other name keeps
what it had. -/
theorem find?_insert (t : NameTable α) (name : String) (value : α) (key : String) :
    (t.insert name value).find? key = if key = name then some value else t.find? key :=
  lookup_insertEntry name value t.entries key

/-- The table of a list of named values; of two values of one name the later one
stays. -/
def ofList (entries : List (String × α)) : NameTable α :=
  entries.foldl (fun t e => t.insert e.1 e.2) empty

end NameTable

end DialogueScript
