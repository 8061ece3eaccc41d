import RuleWalk.Selector.Pattern

/-!
# The pattern cache

A cache keeps every pattern it has read in the order of first use. Asking for a text again gives the pattern in the same
slot; a text that is no pattern leaves the cache as it was.
-/

namespace RuleWalk

/-- The patterns read so far, in order of first use. -/
structure PatternCache where
  patterns : List Pattern := []

/-- A pattern together with the slot that holds it. -/
structure CachedPattern where
  slot : Nat
  pattern : Pattern

namespace PatternCache

/-- The cache that holds nothing. -/
def empty : PatternCache := {}

/-- The number of patterns held. -/
def size (cache : PatternCache) : Nat :=
  cache.patterns.length

/-- The pattern of a text that has been read before. -/
def find? (cache : PatternCache) (raw : String) : Option CachedPattern := do
  let slot ← cache.patterns.findIdx? (·.raw == raw)
  let pattern ← cache.patterns[slot]?
  return ⟨slot, pattern⟩

/-- The pattern of a text, read on first use, or what is wrong with the text; and the cache after that. -/
def parse (cache : PatternCache) (raw : String) : Except ParseError CachedPattern × PatternCache :=
  match cache.find? raw with
  | some cached => (.ok cached, cache)
  | none =>
    match Pattern.parse raw with
    | .ok pattern => (.ok ⟨cache.size, pattern⟩, ⟨cache.patterns ++ [pattern]⟩)
    | .error e => (.error e, cache)

end PatternCache

end RuleWalk
