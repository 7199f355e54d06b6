/-!
Lists of named entries in the order in which the names were first given. A name that is given
again keeps its place and takes the new entry.
-/

set_option autoImplicit false

namespace ConfigLang

/-- Named entries in order. -/
abbrev Fields (α : Type) : Type :=
  List (String × α)

namespace Fields

variable {α : Type}

/-- Replaces the entry of a name, or adds it behind all others. -/
def insert (name : String) (entry : α) : Fields α → Fields α
  | [] => [(name, entry)]
  | (other, old) :: rest =>
    if other = name then (other, entry) :: rest else (other, old) :: insert name entry rest

/-- The entries given one after the other. -/
def ofList (entries : List (String × α)) : Fields α :=
  entries.foldl (fun fields entry => insert entry.1 entry.2 fields) []

def names (fields : Fields α) : List String :=
  fields.map Prod.fst

/-- The entry of a name. -/
def find? (name : String) (fields : Fields α) : Option α :=
  fields.lookup name

/-- Whether two lists without repeated names have the same entries, in whatever order. -/
def sameEntries [DecidableEq α] (left right : Fields α) : Bool :=
  left.length == right.length && left.all fun entry => find? entry.1 right = some entry.2

@[simp] theorem insert_nil (name : String) (entry : α) :
    insert name entry [] = [(name, entry)] := rfl

theorem insert_cons_self (name : String) (entry old : α) (rest : Fields α) :
    insert name entry ((name, old) :: rest) = (name, entry) :: rest := by
  simp only [insert, ↓reduceIte]

theorem insert_cons_of_ne (name other : String) (entry old : α) (rest : Fields α)
    (different : other ≠ name) :
    insert name entry ((other, old) :: rest) = (other, old) :: insert name entry rest := by
  simp only [insert, different, ↓reduceIte]

/-- Insertion adds a name at the end, or none. -/
theorem names_insert (name : String) (entry : α) (fields : Fields α) :
    names (insert name entry fields) =
      if name ∈ names fields then names fields else names fields ++ [name] := by
  induction fields with
  | nil => simp [names]
  | cons head rest ih =>
      obtain ⟨other, old⟩ := head
      by_cases same : other = name
      · subst same
        simp [names, insert_cons_self]
      · have swapped : ¬ name = other := fun equal => same equal.symm
        simp only [names] at ih
        simp only [names, insert_cons_of_ne _ _ _ _ _ same, List.map_cons, ih, List.mem_cons,
          swapped, false_or]
        split <;> simp only [List.cons_append, *, ↓reduceIte]

theorem nodup_names_insert (name : String) (entry : α) (fields : Fields α)
    (distinct : (names fields).Nodup) : (names (insert name entry fields)).Nodup := by
  rw [names_insert]
  split
  · exact distinct
  next absent =>
    rw [List.nodup_append]
    refine ⟨distinct, List.nodup_cons.mpr ⟨by simp, List.nodup_nil⟩, ?_⟩
    intro first member second last equal
    rw [List.mem_singleton] at last
    exact absent (last ▸ equal ▸ member)

end Fields

end ConfigLang
