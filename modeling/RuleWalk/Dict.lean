import RuleWalk.Assoc

/-!
# Finite maps

A finite map as a list of entries, each key once, in the order in which the keys came. That no key comes twice is part of the
map, so an entry is all there is to know of its key. Maps whose listing does not show are of this kind: the instances of a
state table and the user rules of a registry.
-/

namespace RuleWalk

/-- A finite map. -/
structure Dict (κ β : Type) where
  entries : List (κ × β) := []
  distinct : (entries.map Prod.fst).Nodup := by exact List.nodup_nil

namespace Dict

variable {κ β γ δ : Type}

/-- The map without entries. -/
def empty : Dict κ β := {}

/-- The number of entries. -/
def size (d : Dict κ β) : Nat :=
  d.entries.length

/-- The keys in the order in which they came. -/
def keys (d : Dict κ β) : List κ :=
  d.entries.map Prod.fst

/-- The values in the order of their keys. -/
def values (d : Dict κ β) : List β :=
  d.entries.map Prod.snd

/-- The map with every value replaced by one that may depend on its key. -/
def mapEntries (f : κ → β → γ) (d : Dict κ β) : Dict κ γ where
  entries := d.entries.map fun (k, v) => (k, f k v)
  distinct := by
    rw [List.map_map]
    exact d.distinct

/-- The map with a function applied to every value. -/
def map (f : β → γ) (d : Dict κ β) : Dict κ γ :=
  d.mapEntries fun _ => f

@[simp] theorem keys_mapEntries (f : κ → β → γ) (d : Dict κ β) : (d.mapEntries f).keys = d.keys :=
  List.map_map

theorem mapEntries_mapEntries (g : κ → γ → δ) (f : κ → β → γ) (d : Dict κ β) :
    (d.mapEntries f).mapEntries g = d.mapEntries fun k v => g k (f k v) := by
  unfold mapEntries
  congr 1
  exact List.map_map

variable [DecidableEq κ]

/-- The value at a key. -/
def find? (d : Dict κ β) (key : κ) : Option β :=
  d.entries.lookup key

/-- Whether there is a value at a key. -/
def contains (d : Dict κ β) (key : κ) : Bool :=
  (d.find? key).isSome

/-- The map with a function applied to the value at a key, if there is one. -/
def modify (d : Dict κ β) (key : κ) (f : β → β) : Dict κ β :=
  d.mapEntries fun k v => if k = key then f v else v

/-! ## Look-ups -/

@[simp] theorem find?_empty (key : κ) : (empty : Dict κ β).find? key = none := rfl

theorem contains_iff {d : Dict κ β} {key : κ} : d.contains key ↔ key ∈ d.keys := by
  rw [contains, find?, List.lookup_isSome_iff, keys, List.mem_map]
  simp only [beq_iff_eq, @eq_comm _ key]

/-- A value at a key is an entry: there is no other with that key. -/
theorem find?_eq_some_iff {d : Dict κ β} {key : κ} {value : β} : d.find? key = some value ↔ (key, value) ∈ d.entries := by
  constructor
  · intro h
    obtain ⟨before, after, hentries, -⟩ := List.lookup_eq_some_iff.1 h
    rw [hentries]
    exact List.mem_append_right _ List.mem_cons_self
  · intro h
    obtain ⟨before, after, hentries⟩ := List.append_of_mem h
    refine List.lookup_eq_some_iff.2 ⟨before, after, hentries, ?_⟩
    have hdistinct := d.distinct
    rw [hentries, List.map_append, List.nodup_append] at hdistinct
    intro entry hentry
    rw [bne_iff_ne]
    exact Ne.symm (hdistinct.2.2 _ (List.mem_map_of_mem hentry) _ List.mem_cons_self)

theorem find?_mapEntries (f : κ → β → γ) (d : Dict κ β) (key : κ) :
    (d.mapEntries f).find? key = (d.find? key).map (f key) := by
  obtain ⟨entries, distinct⟩ := d
  simp only [find?, mapEntries]
  clear distinct
  induction entries with
  | nil => rfl
  | cons entry rest ih =>
    obtain ⟨k, v⟩ := entry
    rw [List.map_cons, lookup_cons_eq, lookup_cons_eq, ih]
    by_cases hk : key = k
    · simp [hk]
    · simp [hk]

@[simp] theorem find?_map (f : β → γ) (d : Dict κ β) (key : κ) : (d.map f).find? key = (d.find? key).map f :=
  find?_mapEntries (fun _ => f) d key

theorem find?_modify (d : Dict κ β) (key : κ) (f : β → β) (other : κ) :
    (d.modify key f).find? other = if other = key then (d.find? key).map f else d.find? other := by
  rw [modify, find?_mapEntries]
  by_cases heq : other = key
  · simp [heq]
  · simp [heq]

/-- What is found at no key does not matter to a change of all entries. -/
theorem mapEntries_congr {f g : κ → β → γ} {d : Dict κ β}
    (h : ∀ key value, d.find? key = some value → f key value = g key value) :
    d.mapEntries f = d.mapEntries g := by
  unfold mapEntries
  congr 1
  refine List.map_congr_left ?_
  intro entry hentry
  exact congrArg (entry.1, ·) (h entry.1 entry.2 (find?_eq_some_iff.2 hentry))

/-- Putting back what was found changes nothing. -/
theorem modify_of_fixed {d : Dict κ β} {key : κ} {f : β → β} (h : ∀ value, d.find? key = some value → f value = value) :
    d.modify key f = d := by
  have hsame : d.modify key f = d.mapEntries fun _ v => v := by
    refine mapEntries_congr ?_
    intro k value hvalue
    by_cases hk : k = key
    · subst hk
      rw [if_pos rfl, h value hvalue]
    · rw [if_neg hk]
  rw [hsame, mapEntries]
  congr 1
  exact List.map_id' d.entries

/-! ## Insertions -/

/-- The map with `value` at `key`, whatever stood there before. -/
def insert (d : Dict κ β) (key : κ) (value : β) : Dict κ β :=
  if h : d.contains key then d.modify key fun _ => value
  else
    { entries := d.entries ++ [(key, value)]
      distinct := by
        rw [List.map_append, List.nodup_append]
        refine ⟨d.distinct, List.pairwise_singleton _ key, ?_⟩
        intro k hk other hother heq
        rw [List.map_singleton, List.mem_singleton] at hother
        rw [heq, hother] at hk
        exact h (contains_iff.2 hk) }

theorem find?_insert (d : Dict κ β) (key : κ) (value : β) (other : κ) :
    (d.insert key value).find? other = if other = key then some value else d.find? other := by
  unfold insert
  split
  · rename_i h
    obtain ⟨old, hold⟩ := Option.isSome_iff_exists.1 h
    rw [find?_modify, hold]
    rfl
  · rename_i h
    have hnone : d.entries.lookup key = none := Option.not_isSome_iff_eq_none.1 h
    simp only [find?, List.lookup_append, lookup_cons_eq]
    by_cases heq : other = key
    · simp [heq, hnone]
    · simp [heq]

/-- Only a key that is new is put at the end. -/
theorem keys_insert (d : Dict κ β) (key : κ) (value : β) :
    (d.insert key value).keys = if key ∈ d.keys then d.keys else d.keys ++ [key] := by
  unfold insert
  split
  · rename_i h
    rw [if_pos (contains_iff.1 h), modify, keys_mapEntries]
  · rename_i h
    rw [if_neg fun hkey => h (contains_iff.2 hkey)]
    exact List.map_append

end Dict

end RuleWalk
