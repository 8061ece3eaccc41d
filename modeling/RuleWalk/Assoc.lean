/-!
# Ordered association lists

A finite map as a list of entries in increasing order of their keys, each key once. Every map of the library whose
listing shows is one of these: the members of a JSON object, the buckets of a configuration, the named lines of a source.
-/

namespace RuleWalk.Assoc

variable {κ β : Type}

/-- The map with `value` at `key`, whatever stood there before. -/
def insert [Ord κ] (key : κ) (value : β) : List (κ × β) → List (κ × β)
  | [] => [(key, value)]
  | (k, v) :: rest =>
    match compare key k with
    | .lt => (key, value) :: (k, v) :: rest
    | .eq => (key, value) :: rest
    | .gt => (k, v) :: insert key value rest

/-- The map of the given entries; of two entries with one key the later counts. -/
def ofList [Ord κ] (entries : List (κ × β)) : List (κ × β) :=
  entries.foldl (fun map (k, v) => insert k v map) []

/-- The entries of `layer` laid over those of `base`. -/
def merge [Ord κ] (base layer : List (κ × β)) : List (κ × β) :=
  layer.foldl (fun map (k, v) => insert k v map) base

/-- The keys in increasing order. -/
def keys (map : List (κ × β)) : List κ :=
  map.map Prod.fst

end RuleWalk.Assoc

namespace RuleWalk

theorem lookup_cons_eq {κ β : Type} [BEq κ] [LawfulBEq κ] [DecidableEq κ] (key k : κ) (v : β) (rest : List (κ × β)) :
    ((k, v) :: rest).lookup key = if key = k then some v else rest.lookup key := by
  rw [List.lookup_cons]
  by_cases h : key = k
  · rw [if_pos h, beq_iff_eq.2 h]
  · rw [if_neg h, beq_eq_false_iff_ne.2 h]

end RuleWalk
