import ConfigLang.Fields
import Mathlib.Data.List.Induction
/-!
Entries given one after the other. Each name comes once, where it was given first, with the entry
that was given last.
-/

set_option autoImplicit false

namespace ConfigLang.Fields

variable {α : Type}

/-! ### Entries by name -/

theorem find?_cons (name other : String) (entry : α) (rest : Fields α) :
    find? other ((name, entry) :: rest) =
      if other = name then some entry else find? other rest := by
  by_cases same : other = name
  · subst same
    rw [if_pos rfl, find?, List.lookup_cons_self]
  · have apart : (other == name) = false := beq_false_of_ne same
    rw [if_neg same, find?, List.lookup_cons, apart]
    rfl

theorem find?_eq_none {name : String} {fields : Fields α} (absent : name ∉ names fields) :
    find? name fields = none := by
  induction fields with
  | nil => rfl
  | cons head rest ih =>
      obtain ⟨other, entry⟩ := head
      obtain ⟨different, absent⟩ := List.ne_and_not_mem_of_not_mem_cons absent
      rw [find?_cons, if_neg different, ih absent]

/-- Fields in which no name is repeated are the same if they have the same names in order and the
same entries. -/
theorem ext_find? : ∀ {fields others : Fields α}, names fields = names others →
    (names fields).Nodup → (∀ name, find? name fields = find? name others) → fields = others
  | [], [], _, _, _ => rfl
  | (name, entry) :: rest, (other, instead) :: more, same, distinct, alike => by
      obtain ⟨rfl, others⟩ : name = other ∧ names rest = names more := List.cons.inj same
      obtain ⟨fresh, distinct⟩ := List.nodup_cons.mp distinct
      have entries := alike name
      rw [find?_cons, find?_cons, if_pos rfl, if_pos rfl] at entries
      obtain rfl := Option.some.inj entries
      refine congrArg ((name, entry) :: ·) (ext_find? others distinct fun wanted => ?_)
      by_cases first : wanted = name
      · subst first
        rw [find?_eq_none fresh, find?_eq_none (others ▸ fresh)]
      · simpa only [find?_cons, if_neg first] using alike wanted

/-! ### Insertion -/

theorem find?_insert (name other : String) (entry : α) (fields : Fields α) :
    find? other (insert name entry fields) =
      if other = name then some entry else find? other fields := by
  induction fields with
  | nil => exact find?_cons name other entry []
  | cons head rest ih =>
      obtain ⟨first, old⟩ := head
      by_cases kept : first = name
      · subst kept
        rw [insert_cons_self, find?_cons, find?_cons]
        split
        · rfl
        · rfl
      · rw [insert_cons_of_ne _ _ _ _ _ kept, find?_cons, find?_cons, ih]
        grind

theorem insert_of_notMem {name : String} {fields : Fields α} (absent : name ∉ names fields)
    (entry : α) : insert name entry fields = fields ++ [(name, entry)] := by
  induction fields with
  | nil => rfl
  | cons field fields ih =>
      obtain ⟨other, old⟩ := field
      simp only [names, List.map_cons, List.mem_cons, not_or] at absent ih
      rw [insert_cons_of_ne _ _ _ _ _ (Ne.symm absent.1), ih absent.2, List.cons_append]

theorem forall_insert {P : α → Prop} {name : String} {entry : α} {fields : Fields α}
    (holds : P entry) (inner : ∀ field ∈ fields, P field.2) :
    ∀ field ∈ insert name entry fields, P field.2 := by
  induction fields with
  | nil => exact List.forall_mem_singleton.mpr holds
  | cons head rest ih =>
      obtain ⟨first, others⟩ := List.forall_mem_cons.mp inner
      rw [insert]
      split
      · exact List.forall_mem_cons.mpr ⟨holds, others⟩
      · exact List.forall_mem_cons.mpr ⟨first, ih others⟩

/-! ### Insertion of one entry after the other

The last entry is inserted last, so that the inductions go from the end. -/

theorem ofList_concat (entries : List (String × α)) (entry : String × α) :
    ofList (entries ++ [entry]) = insert entry.1 entry.2 (ofList entries) := by
  rw [ofList, List.foldl_append]
  rfl

/-- Entries with distinct names stay as they are. -/
theorem ofList_of_nodup {entries : List (String × α)} (distinct : (entries.map Prod.fst).Nodup) :
    ofList entries = entries := by
  induction entries using List.reverseRecOn with
  | nil => rfl
  | append_singleton entries entry ih =>
      rw [List.map_append, List.nodup_append] at distinct
      obtain ⟨distinct, -, apart⟩ := distinct
      have absent : entry.1 ∉ names entries :=
        fun member => apart _ member _ List.mem_cons_self rfl
      rw [ofList_concat, ih distinct, insert_of_notMem absent]

/-- What holds of all entries given one after the other holds of those that are kept. -/
theorem forall_ofList {P : α → Prop} {entries : List (String × α)}
    (inner : ∀ entry ∈ entries, P entry.2) : ∀ field ∈ ofList entries, P field.2 := by
  induction entries using List.reverseRecOn with
  | nil => exact inner
  | append_singleton entries entry ih =>
      obtain ⟨before, last⟩ := List.forall_mem_append.mp inner
      rw [ofList_concat]
      exact forall_insert (last entry List.mem_cons_self) (ih before)

/-- The last entry that was given for a name. -/
def last? (name : String) (entries : List (String × α)) : Option α :=
  (entries.findRev? fun entry => entry.1 = name).map Prod.snd

theorem last?_concat (entries : List (String × α)) (entry : String × α) (name : String) :
    last? name (entries ++ [entry]) =
      if name = entry.1 then some entry.2 else last? name entries := by
  rw [last?, last?, List.findRev?_eq_find?_reverse, List.findRev?_eq_find?_reverse,
    List.reverse_append, List.reverse_singleton, List.singleton_append]
  by_cases same : entry.1 = name
  · simp [same]
  · simp [same, Ne.symm same]

/-- An entry does not count if its name is given again. -/
theorem last?_shadowed {name : String} {after : List (String × α)} (again : name ∈ names after)
    (before : List (String × α)) (shadowed : α) (wanted : String) :
    last? wanted (before ++ (name, shadowed) :: after) = last? wanted (before ++ after) := by
  simp only [last?, List.findRev?_eq_find?_reverse, List.reverse_append, List.reverse_cons,
    List.append_assoc, List.find?_append, List.singleton_append]
  by_cases same : name = wanted
  · subst same
    have found : (after.reverse.find? fun entry => entry.1 = name).isSome := by
      obtain ⟨entry, member, named⟩ := List.mem_map.mp again
      exact List.find?_isSome.mpr ⟨entry, List.mem_reverse.mpr member, decide_eq_true named⟩
    rw [Option.or_of_isSome found, Option.or_of_isSome found]
  · rw [List.find?_cons_of_neg (by simpa using same)]

theorem eraseDups_concat (names : List String) (name : String) :
    (names ++ [name]).eraseDups =
      if name ∈ names.eraseDups then names.eraseDups else names.eraseDups ++ [name] := by
  rw [List.eraseDups_append]
  by_cases member : name ∈ names
  · simp [List.removeAll, member, List.mem_eraseDups]
  · simp [List.removeAll, member, List.mem_eraseDups, List.eraseDups_cons]

/-- The fields have each name that was given once, where it was given first, with the entry that was
given last. -/
structure Gathers (entries : List (String × α)) (fields : Fields α) : Prop where
  names : names fields = (Fields.names entries).eraseDups
  distinct : (Fields.names fields).Nodup
  last (name : String) : find? name fields = last? name entries

namespace Gathers

variable {entries others : List (String × α)} {fields kept : Fields α}

theorem nil : Gathers ([] : List (String × α)) [] :=
  ⟨rfl, List.nodup_nil, fun _ => rfl⟩

theorem insert (gathers : Gathers entries fields) (entry : String × α) :
    Gathers (entries ++ [entry]) (insert entry.1 entry.2 fields) where
  names := by
    have appended : Fields.names (entries ++ [entry]) = Fields.names entries ++ [entry.1] :=
      List.map_append
    rw [appended, eraseDups_concat, names_insert, gathers.names]
  distinct := nodup_names_insert entry.1 entry.2 fields gathers.distinct
  last name := by rw [find?_insert, last?_concat, gathers.last]

theorem ofList (entries : List (String × α)) : Gathers entries (ofList entries) := by
  induction entries using List.reverseRecOn with
  | nil => exact .nil
  | append_singleton entries entry ih =>
      rw [ofList_concat]
      exact ih.insert entry

theorem eq_of_last (gathers : Gathers entries fields) (other : Gathers others kept)
    (names : Fields.names entries = Fields.names others)
    (last : ∀ name, last? name entries = last? name others) : fields = kept := by
  apply ext_find?
  · rw [gathers.names, other.names, names]
  · exact gathers.distinct
  · intro name
    rw [gathers.last, other.last, last]

end Gathers

end ConfigLang.Fields
