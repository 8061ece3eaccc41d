import RuleWalk.Selector.Cache

/-!
# A cache gives what reading gives

A cache starts empty and grows only by what is read with it. So each pattern it holds is the one that its text reads as,
and asking the cache is as good as reading anew.
-/

namespace RuleWalk

/-- What a pattern carries is what its selector says. -/
theorem Pattern.parse_eq_ok {raw : String} {p : Pattern} (h : Pattern.parse raw = .ok p) :
    p.raw = raw ∧ p.types = p.selector.types := by
  unfold parse at h
  split at h
  · cases h
    exact ⟨rfl, rfl⟩
  · cases h

namespace PatternCache

/-- The caches that come about by asking for one text after the other. -/
inductive Made : PatternCache → Prop
  | empty : Made .empty
  | parse {cache : PatternCache} (made : Made cache) (raw : String) : Made (cache.parse raw).2

/-- Every pattern of the cache is what its text reads as. -/
def Sound (cache : PatternCache) : Prop :=
  ∀ p ∈ cache.patterns, Pattern.parse p.raw = .ok p

theorem find?_eq_some {cache : PatternCache} {raw : String} {cached : CachedPattern} (h : cache.find? raw = some cached) :
    cached.pattern ∈ cache.patterns ∧ cached.pattern.raw = raw := by
  simp only [find?, Option.bind_eq_bind, Option.bind_eq_some_iff] at h
  obtain ⟨slot, hslot, pattern, hpattern, heq⟩ := h
  cases heq
  obtain ⟨hlt, hraw, -⟩ := List.findIdx?_eq_some_iff_getElem.1 hslot
  obtain ⟨_, rfl⟩ := List.getElem?_eq_some_iff.1 hpattern
  exact ⟨List.getElem_mem hlt, by simpa using hraw⟩

/-- A sound cache answers as reading the text does, and stays sound. -/
theorem Sound.parse {cache : PatternCache} (hs : cache.Sound) (raw : String) :
    (cache.parse raw).1.map CachedPattern.pattern = Pattern.parse raw ∧ (cache.parse raw).2.Sound := by
  unfold PatternCache.parse
  cases hfound : cache.find? raw with
  | some cached =>
    obtain ⟨hmem, rfl⟩ := find?_eq_some hfound
    exact ⟨(hs _ hmem).symm, hs⟩
  | none =>
    dsimp only
    cases hp : Pattern.parse raw with
    | error e => exact ⟨rfl, hs⟩
    | ok p =>
      refine ⟨rfl, fun q hq => ?_⟩
      rcases List.mem_append.1 hq with hq | hq
      · exact hs q hq
      · obtain rfl := List.mem_singleton.1 hq
        exact (Pattern.parse_eq_ok hp).1 ▸ hp

/-- A text that can be read is answered, whatever the cache holds. -/
theorem parse_of_ok (cache : PatternCache) {raw : String} {p : Pattern} (h : Pattern.parse raw = .ok p) :
    ∃ cached cache', cache.parse raw = (.ok cached, cache') := by
  unfold PatternCache.parse
  cases cache.find? raw with
  | some cached => exact ⟨cached, cache, rfl⟩
  | none => exact ⟨_, _, by rw [h]⟩

/-- A call that fails leaves the cache as it was. -/
theorem parse_of_refused {cache : PatternCache} {raw : String} {e : ParseError} (h : (cache.parse raw).1 = .error e) :
    (cache.parse raw).2 = cache := by
  unfold PatternCache.parse at h ⊢
  cases hfound : cache.find? raw with
  | some cached => rfl
  | none =>
    rw [hfound] at h
    dsimp only at h ⊢
    cases hp : Pattern.parse raw with
    | error e' => rfl
    | ok p =>
      rw [hp] at h
      cases h

/-- Caches that come about by asking are sound. -/
theorem Made.sound {cache : PatternCache} (h : cache.Made) : cache.Sound := by
  induction h with
  | empty => exact nofun
  | parse _ raw ih => exact (ih.parse raw).2

end PatternCache

end RuleWalk
