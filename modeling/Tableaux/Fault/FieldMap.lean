/-!
Named details of a fault: a map from names to texts, kept in the order of the names.
-/

namespace Tableaux

/-- Entries in increasing order of their keys, so that each key has one entry at most. -/
structure FieldMap where
  entries : List (String × String)
  sorted : entries.Pairwise fun a b => a.1 < b.1
deriving DecidableEq

namespace FieldMap

def empty : FieldMap :=
  ⟨[], .nil⟩

/-- Puts an entry in its place; an entry with the same key is replaced. -/
def insertEntry (key value : String) : List (String × String) → List (String × String)
  | [] => [(key, value)]
  | entry :: entries =>
      if key < entry.1 then (key, value) :: entry :: entries
      else if key = entry.1 then (key, value) :: entries
      else entry :: insertEntry key value entries

theorem mem_insertEntry {key value : String} {entries : List (String × String)} {entry : String × String}
    (h : entry ∈ insertEntry key value entries) : entry = (key, value) ∨ entry ∈ entries := by
  induction entries with
  | nil => simpa [insertEntry] using h
  | cons first entries ih =>
      simp only [insertEntry] at h
      split at h
      · simpa using h
      · split at h
        · rcases List.mem_cons.mp h with h | h
          · exact .inl h
          · exact .inr (List.mem_cons_of_mem _ h)
        · rcases List.mem_cons.mp h with h | h
          · exact .inr (h ▸ List.mem_cons_self)
          · exact (ih h).imp_right (List.mem_cons_of_mem _)

theorem sorted_insertEntry (key value : String) {entries : List (String × String)}
    (h : entries.Pairwise fun a b => a.1 < b.1) :
    (insertEntry key value entries).Pairwise fun a b => a.1 < b.1 := by
  induction entries with
  | nil => simp [insertEntry]
  | cons first entries ih =>
      obtain ⟨hfirst, hentries⟩ := List.pairwise_cons.mp h
      simp only [insertEntry]
      split
      · next hlt =>
          refine List.pairwise_cons.mpr ⟨?_, h⟩
          intro entry hmem
          rcases List.mem_cons.mp hmem with heq | hmem
          · simpa [heq] using hlt
          · exact String.lt_trans hlt (hfirst entry hmem)
      · next hge =>
          split
          · next heq => exact List.pairwise_cons.mpr ⟨fun entry hmem => heq ▸ hfirst entry hmem, hentries⟩
          · next hne =>
              refine List.pairwise_cons.mpr ⟨?_, ih hentries⟩
              intro entry hmem
              rcases mem_insertEntry hmem with heq | hmem
              · have hle : first.1 ≤ key := String.not_lt.mp hge
                subst heq
                rcases Decidable.em (first.1 < key) with hlt | hnlt
                · exact hlt
                · exact absurd (String.le_antisymm (String.not_lt.mp hnlt) hle) hne
              · exact hfirst entry hmem

def insert (m : FieldMap) (key value : String) : FieldMap :=
  ⟨insertEntry key value m.entries, sorted_insertEntry key value m.sorted⟩

def get? (m : FieldMap) (key : String) : Option String :=
  m.entries.lookup key

def isEmpty (m : FieldMap) : Bool :=
  m.entries.isEmpty

/-- The map of the given entries; of entries with the same key the last counts. -/
def ofList (entries : List (String × String)) : FieldMap :=
  entries.foldl (fun m entry => m.insert entry.1 entry.2) empty

end FieldMap

end Tableaux
