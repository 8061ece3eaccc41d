import RuleWalk.Proofs.Assembly
import RuleWalk.Engine.Run

/-!
# Caching is transparent

After any number of calls a cache holds the patterns of the texts that could be read, one for each text and in order of first
use. So the slot of an answer is the place of its text among these, and the answer is what reading the text gives. An index
only asks its cache for texts, so what it files does not depend on what the cache has seen, nor does anything that an engine
does with the index.
-/

namespace RuleWalk

namespace PatternCache

/-! ## Calls -/

/-- The cache after calls for some texts. -/
def after (cache : PatternCache) (raws : List String) : PatternCache :=
  raws.foldl (fun cache raw => (cache.parse raw).2) cache

/-- The answers to calls for some texts. -/
def answers (cache : PatternCache) : List String → List (Except ParseError CachedPattern)
  | [] => []
  | raw :: rest => (cache.parse raw).1 :: answers (cache.parse raw).2 rest

/-- The texts of the patterns that are held, by slot. -/
def texts (cache : PatternCache) : List String :=
  cache.patterns.map (·.raw)

theorem after_concat (cache : PatternCache) (raws : List String) (raw : String) :
    cache.after (raws ++ [raw]) = ((cache.after raws).parse raw).2 := by
  simp [after]

theorem after_append (cache : PatternCache) (raws more : List String) :
    cache.after (raws ++ more) = (cache.after raws).after more := by
  simp [after]

/-- The answers are those of the single calls, each to the cache that the calls before it have left. -/
theorem getElem?_answers (cache : PatternCache) (raws : List String) (i : Nat) :
    (cache.answers raws)[i]? = raws[i]?.map fun raw => ((cache.after (raws.take i)).parse raw).1 := by
  induction raws generalizing cache i with
  | nil => simp [answers]
  | cons raw rest ih =>
    cases i with
    | zero => simp [answers, after]
    | succ i =>
      rw [answers, List.getElem?_cons_succ, ih]
      simp [after]

theorem find?_eq_none_iff {cache : PatternCache} {raw : String} : cache.find? raw = none ↔ raw ∉ cache.texts := by
  unfold find? texts
  cases hslot : cache.patterns.findIdx? (·.raw == raw) with
  | none => simpa using List.findIdx?_eq_none_iff.1 hslot
  | some slot =>
    obtain ⟨hlt, hraw, -⟩ := List.findIdx?_eq_some_iff_getElem.1 hslot
    have hmem : raw ∈ cache.patterns.map (·.raw) := List.mem_map.2 ⟨_, List.getElem_mem hlt, by simpa using hraw⟩
    simpa [List.getElem?_eq_getElem hlt] using hmem

/-- A pattern that is found lies in the slot of its text. -/
theorem slot_of_find? {cache : PatternCache} {raw : String} {cached : CachedPattern} (h : cache.find? raw = some cached) :
    cached.slot = cache.texts.idxOf raw := by
  simp only [find?, Option.bind_eq_bind, Option.bind_eq_some_iff] at h
  obtain ⟨slot, hslot, pattern, -, heq⟩ := h
  cases heq
  have hidx : cache.texts.idxOf raw = cache.patterns.findIdx (·.raw == raw) := List.findIdx_map ..
  rw [List.findIdx?_eq_guard_findIdx_lt, Option.guard_eq_some_iff] at hslot
  rw [hidx, hslot.1]

/-- A text that is no pattern is refused by every sound cache, with what reading it gives. -/
theorem parse_eq_of_error {cache : PatternCache} (hs : cache.Sound) {raw : String} {e : ParseError}
    (h : Pattern.parse raw = .error e) : cache.parse raw = (.error e, cache) := by
  have hnone : cache.find? raw = none := by
    cases hfound : cache.find? raw with
    | none => rfl
    | some cached =>
      obtain ⟨hmem, rfl⟩ := find?_eq_some hfound
      cases h.symm.trans (hs _ hmem)
  rw [parse, hnone, h]

/-- A text that is a pattern is answered with it, and its slot is the place of the text. -/
theorem parse_eq_of_ok {cache : PatternCache} (hs : cache.Sound) {raw : String} {p : Pattern} (h : Pattern.parse raw = .ok p) :
    cache.parse raw = (.ok ⟨cache.texts.idxOf raw, p⟩, if raw ∈ cache.texts then cache else ⟨cache.patterns ++ [p]⟩) := by
  rw [parse]
  cases hfound : cache.find? raw with
  | none =>
    have hnew := find?_eq_none_iff.1 hfound
    have hend : cache.texts.idxOf raw = cache.size := by
      rw [List.idxOf_eq_length hnew, texts, List.length_map, size]
    rw [h, hend, if_neg hnew]
  | some cached =>
    have hheld : raw ∈ cache.texts := by
      by_contra hnew
      rw [find?_eq_none_iff.2 hnew] at hfound
      cases hfound
    obtain ⟨hmem, hraw⟩ := find?_eq_some hfound
    have hpattern : p = cached.pattern := by
      have hread := hs _ hmem
      rw [hraw, h] at hread
      exact Except.ok.inj hread
    rw [if_pos hheld, ← slot_of_find? hfound, hpattern]

/-! ## What a cache holds after calls -/

theorem Sound.after {cache : PatternCache} (hs : cache.Sound) (raws : List String) : (cache.after raws).Sound := by
  induction raws using List.reverseRecOn with
  | nil => exact hs
  | append_singleton raws raw ih =>
    rw [after_concat]
    exact (ih.parse raw).2

theorem sound_empty : empty.Sound := nofun

/-- Whether a text is a pattern. -/
def readable (raw : String) : Bool :=
  (Pattern.parse raw).isOk

theorem readable_iff {raw : String} : readable raw ↔ ∃ p, Pattern.parse raw = .ok p := by
  unfold readable
  cases Pattern.parse raw <;> simp [Except.isOk, Except.toBool]

theorem texts_parse {cache : PatternCache} (hs : cache.Sound) (raw : String) :
    (cache.parse raw).2.texts = if readable raw ∧ raw ∉ cache.texts then cache.texts ++ [raw] else cache.texts := by
  unfold readable
  cases h : Pattern.parse raw with
  | error e =>
    rw [parse_eq_of_error hs h]
    simp [Except.isOk, Except.toBool]
  | ok p =>
    rw [parse_eq_of_ok hs h]
    by_cases hheld : raw ∈ cache.texts
    · simp [hheld]
    · rw [if_neg hheld, if_pos ⟨rfl, hheld⟩, texts, List.map_append, List.map_singleton, (Pattern.parse_eq_ok h).1]
      rfl

/-- The cache holds each text that could be read, once and in order of first use. -/
theorem texts_after (raws : List String) : (empty.after raws).texts = (raws.filter readable).eraseDups := by
  induction raws using List.reverseRecOn with
  | nil => rfl
  | append_singleton raws raw ih =>
    rw [after_concat, texts_parse (sound_empty.after raws), ih, List.filter_append]
    simp only [List.mem_eraseDups]
    by_cases hread : readable raw
    · rw [List.filter_cons_of_pos hread, List.filter_nil, eraseDups_concat]
      by_cases hheld : raw ∈ raws.filter readable <;> simp [hread, hheld]
    · simp [hread]

theorem prefix_texts_parse {cache : PatternCache} (hs : cache.Sound) (raw : String) :
    cache.texts <+: (cache.parse raw).2.texts := by
  rw [texts_parse hs]
  split
  · exact List.prefix_append _ _
  · exact List.prefix_refl _

theorem prefix_texts_after {cache : PatternCache} (hs : cache.Sound) (raws : List String) :
    cache.texts <+: (cache.after raws).texts := by
  induction raws using List.reverseRecOn with
  | nil => exact List.prefix_refl _
  | append_singleton raws raw ih =>
    rw [after_concat]
    exact ih.trans (prefix_texts_parse (hs.after raws) raw)

/-- The slot of an answer is the place of its text in the cache, now and after any later calls. -/
theorem slot_of_parse {cache : PatternCache} (hs : cache.Sound) {raw : String} {cached : CachedPattern}
    (h : (cache.parse raw).1 = .ok cached) (later : List String) :
    raw ∈ ((cache.parse raw).2.after later).texts ∧ cached.slot = ((cache.parse raw).2.after later).texts.idxOf raw := by
  cases hread : Pattern.parse raw with
  | error e =>
    rw [parse_eq_of_error hs hread] at h
    cases h
  | ok p =>
    have hask := parse_eq_of_ok hs hread
    rw [hask] at h
    cases h
    have hreadable : readable raw := by rw [readable, hread]; rfl
    have htexts := texts_parse hs raw
    have hmem : raw ∈ (cache.parse raw).2.texts := by
      rw [htexts]
      by_cases hheld : raw ∈ cache.texts <;> simp [hreadable, hheld]
    have hplace : (cache.parse raw).2.texts.idxOf raw = cache.texts.idxOf raw := by
      rw [htexts]
      by_cases hheld : raw ∈ cache.texts
      · simp [hheld]
      · rw [if_pos ⟨hreadable, hheld⟩, List.idxOf_append_of_notMem hheld, List.idxOf_cons_self, List.idxOf_eq_length hheld]
        rfl
    obtain ⟨more, hmore⟩ := prefix_texts_after (hs.parse raw).2 later
    rw [← hmore]
    exact ⟨List.mem_append_left _ hmem, by rw [List.idxOf_append_of_mem hmem, hplace]⟩

/-- The same for an answer among others. -/
theorem slot_of_answers {raws : List String} {i : Nat} {cached : CachedPattern}
    (h : (empty.answers raws)[i]? = some (.ok cached)) : ∃ raw, raws[i]? = some raw ∧ raw ∈ (empty.after raws).texts ∧
      Pattern.parse raw = .ok cached.pattern ∧ cached.slot = (empty.after raws).texts.idxOf raw := by
  rw [getElem?_answers] at h
  obtain ⟨raw, hraw, hask⟩ := Option.map_eq_some_iff.1 h
  have hs := sound_empty.after (raws.take i)
  have hsplit : raws = raws.take i ++ raw :: raws.drop (i + 1) := by
    obtain ⟨hlt, rfl⟩ := List.getElem?_eq_some_iff.1 hraw
    simp
  have hafter : empty.after raws = ((empty.after (raws.take i)).parse raw).2.after (raws.drop (i + 1)) := by
    nth_rewrite 1 [hsplit]
    rw [List.append_cons, after_append, after_concat]
  obtain ⟨hmem, hslot⟩ := slot_of_parse hs hask (raws.drop (i + 1))
  rw [← hafter] at hmem hslot
  refine ⟨raw, hraw, hmem, ?_, hslot⟩
  have hanswer := (hs.parse raw).1
  rw [hask] at hanswer
  exact hanswer.symm

/-- A sound cache has the pattern of a text in the slot of the text. -/
theorem Sound.getElem?_idxOf {cache : PatternCache} (hs : cache.Sound) {raw : String} (hmem : raw ∈ cache.texts)
    {p : Pattern} (h : Pattern.parse raw = .ok p) : cache.patterns[cache.texts.idxOf raw]? = some p := by
  have hplace : cache.texts[cache.texts.idxOf raw]? = some raw := List.getElem?_idxOf hmem
  rw [texts, List.getElem?_map] at hplace
  obtain ⟨q, hq, hraw⟩ := Option.map_eq_some_iff.1 hplace
  have hread := hs q (List.mem_of_getElem? hq)
  rw [hraw, h] at hread
  cases hread
  exact hq

theorem after_of_refused {raws : List String} {i : Nat} {e : ParseError}
    (h : (empty.answers raws)[i]? = some (.error e)) : empty.after (raws.take (i + 1)) = empty.after (raws.take i) := by
  rw [getElem?_answers] at h
  obtain ⟨raw, hraw, hask⟩ := Option.map_eq_some_iff.1 h
  rw [List.take_add_one, hraw, Option.toList_some, after_concat]
  exact parse_of_refused hask

/-- Each answer is what reading the text gives. -/
theorem map_answers (raws : List String) :
    (empty.answers raws).map (Except.map CachedPattern.pattern) = raws.map Pattern.parse := by
  refine List.ext_getElem? fun i => ?_
  rw [List.getElem?_map, List.getElem?_map, getElem?_answers, Option.map_map]
  refine Option.map_congr fun raw _ => ?_
  have hs := sound_empty.after (raws.take i)
  exact (hs.parse raw).1

end PatternCache

/-! ## Indexes -/

namespace SelectorIndex

variable {L : Type}

/-- Adds a registration to an index without a cache. -/
def enroll (order : DeliveryOrder) (index : SelectorIndex L) (r : Registration L) : Except ParseError (SelectorIndex L) :=
  let heard := index.listen r.selector (r.emission order)
  if (index.listenersOf r.selector).isEmpty then (Pattern.parse r.selector).map heard.file else .ok heard

/-- What a sound cache answers does not depend on what it holds. -/
theorem register_eq_enroll (order : DeliveryOrder) {state : SelectorIndex L × PatternCache} (hs : state.2.Sound)
    (r : Registration L) : (register order state r).map Prod.fst = enroll order state.1 r := by
  unfold register enroll
  dsimp only
  split
  · rw [← (hs.parse r.selector).1]
    obtain ⟨answer, cache⟩ := state.2.parse r.selector
    cases answer <;> rfl
  · rfl

theorem cache_of_register {order : DeliveryOrder} {state next : SelectorIndex L × PatternCache} {r : Registration L}
    (h : register order state r = .ok next) : next.2 = state.2 ∨ next.2 = (state.2.parse r.selector).2 := by
  unfold register at h
  dsimp only at h
  split at h
  · right
    generalize state.2.parse r.selector = result at h ⊢
    obtain ⟨_ | cached, cache⟩ := result
    · cases h
    · cases h
      rfl
  · cases h
    exact Or.inl rfl

theorem sound_of_register {order : DeliveryOrder} {state next : SelectorIndex L × PatternCache} {r : Registration L}
    (hs : state.2.Sound) (h : register order state r = .ok next) : next.2.Sound := by
  rcases cache_of_register h with heq | heq
  · rw [heq]
    exact hs
  · rw [heq]
    exact (hs.parse r.selector).2

/-- Any two sound caches give one index, or one error. -/
theorem build_congr (order : DeliveryOrder) {cache cache' : PatternCache} (hs : cache.Sound) (hs' : cache'.Sound)
    (registrations : List (Registration L)) :
    (build order cache registrations).map Prod.fst = (build order cache' registrations).map Prod.fst := by
  have hfold : ∀ cache : PatternCache, cache.Sound →
      (registrations.foldlM (register order) ({}, cache)).map Prod.fst = registrations.foldlM (enroll order) {} := by
    intro cache hs
    exact foldlM_view Prod.fst (fun state => state.2.Sound) (fun _ _ _ => sound_of_register)
      (fun _ r hstate => register_eq_enroll order hstate r) registrations hs
  have hview : ∀ cache : PatternCache, (build order cache registrations).map Prod.fst =
      ((registrations.foldlM (register order) ({}, cache)).map Prod.fst).map
        fun index => { index with enter := index.enter.sort, leave := index.leave.sort } := by
    intro cache
    rw [build]
    cases registrations.foldlM (register order) ({}, cache) <;> rfl
  rw [hview, hview, hfold cache hs, hfold cache' hs']

/-- The cache that an index hands on is the given one after further calls. -/
theorem cache_of_build {order : DeliveryOrder} {cache cache' : PatternCache} {registrations : List (Registration L)}
    {index : SelectorIndex L} (h : build order cache registrations = .ok (index, cache')) :
    ∃ raws, cache' = cache.after raws := by
  unfold build at h
  cases hfold : registrations.foldlM (register order) ({}, cache) with
  | error e =>
    rw [hfold] at h
    cases h
  | ok state =>
    rw [hfold] at h
    cases h
    refine foldlM_keeps (fun state : SelectorIndex L × PatternCache => ∃ raws, state.2 = cache.after raws) ?_ ⟨[], rfl⟩ hfold
    rintro r - state next ⟨raws, hraws⟩ hstep
    rcases cache_of_register hstep with heq | heq
    · exact ⟨raws, heq.trans hraws⟩
    · exact ⟨raws ++ [r.selector], by rw [heq, hraws, PatternCache.after_concat]⟩

end SelectorIndex

/-! ## Engines -/

namespace Engine

variable {K : Type} [Kinds K] {Note : Type}

/-- The engine without the patterns that were read for it. -/
def withoutCache (e : Engine K Note) : Engine K Note :=
  { e with cache := .empty }

theorem finish_congr {cache cache' : PatternCache} (hs : cache.Sound) (hs' : cache'.Sound) (order : DeliveryOrder)
    (a : Assembly K Note) (registrations : List (Registration (Listener K Note))) :
    (finish cache order a registrations).map withoutCache = (finish cache' order a registrations).map withoutCache := by
  have hview : ∀ cache : PatternCache, (finish cache order a registrations).map withoutCache =
      match (SelectorIndex.build order cache registrations).map Prod.fst with
      | .ok index => .ok ⟨a.states, a.bound.map (·.binding), index, order, .empty⟩
      | .error e => .error (.parse e) := by
    intro cache
    rw [finish]
    cases SelectorIndex.build order cache registrations <;> rfl
  rw [hview, hview, SelectorIndex.build_congr order hs hs']

/-- Any two sound caches give engines that differ in their caches only, or one error, and leave the registry alike. -/
theorem setupWith_congr {cache cache' : PatternCache} (hs : cache.Sound) (hs' : cache'.Sound) (r : Registry K Note)
    (groups : List Group) (c : Config) :
    (setupWith cache r groups c).outcome.map withoutCache = (setupWith cache' r groups c).outcome.map withoutCache ∧
      (setupWith cache r groups c).registry = (setupWith cache' r groups c).registry ∧
      (setupWith cache r groups c).notes = (setupWith cache' r groups c).notes := by
  unfold setupWith
  dsimp only
  cases prepare r groups c with
  | error e => exact ⟨rfl, rfl, rfl⟩
  | ok prepared =>
    refine ⟨?_, rfl, rfl⟩
    dsimp only
    cases (Assembly.visitors prepared.2.bound).2 with
    | error e => rfl
    | ok registrations => exact finish_congr hs hs' prepared.1 prepared.2 registrations

theorem cache_of_setupWith {cache : PatternCache} {r : Registry K Note} {groups : List Group} {c : Config} {e : Engine K Note}
    (h : (setupWith cache r groups c).outcome = .ok e) : ∃ raws, e.cache = cache.after raws := by
  obtain ⟨order, a, registered, index, cache', -, -, -, hbuild, rfl⟩ := setupWith_eq_ok_iff.1 h
  exact SelectorIndex.cache_of_build hbuild

/-- An outcome that agrees with a success up to the caches is a success. -/
theorem eq_ok_of_map {outcome : Except EngineError (Engine K Note)} {e : Engine K Note}
    (h : outcome.map withoutCache = .ok e.withoutCache) : ∃ e', outcome = .ok e' ∧ e'.withoutCache = e.withoutCache := by
  cases outcome with
  | error reason => cases h
  | ok e' => exact ⟨e', rfl, Except.ok.inj h⟩

end Engine

/-- Caching is transparent. In any sequence of calls of one cache each answer is what reading the text gives; two answers lie
in one slot exactly if their texts are equal, and a slot keeps its pattern; a call that fails leaves the cache as it was; and
the cache holds as many patterns as there are distinct texts that could be read. So an index is the same as with an empty
cache, or is refused alike, and an engine differs in its cache only: the same listeners are emitted at every visit and every
run goes the same way. The cache that an engine hands on has come about by further calls. -/
theorem PatternCache.transparent (raws : List String) :
    (empty.answers raws).map (Except.map CachedPattern.pattern) = raws.map Pattern.parse ∧
    (∀ (i j : Nat) (a b : CachedPattern), (empty.answers raws)[i]? = some (.ok a) →
      (empty.answers raws)[j]? = some (.ok b) → (a.slot = b.slot ↔ raws[i]? = raws[j]?)) ∧
    (∀ (i : Nat) (a : CachedPattern), (empty.answers raws)[i]? = some (.ok a) →
      (empty.after raws).patterns[a.slot]? = some a.pattern) ∧
    (∀ (i : Nat) (e : ParseError), (empty.answers raws)[i]? = some (.error e) →
      empty.after (raws.take (i + 1)) = empty.after (raws.take i)) ∧
    (empty.after raws).size = (raws.filter readable).eraseDups.length ∧
    (∀ (L : Type) (order : DeliveryOrder) (registrations : List (Registration L)),
      (SelectorIndex.build order (empty.after raws) registrations).map Prod.fst =
        (SelectorIndex.build order empty registrations).map Prod.fst) ∧
    ∀ (K : Type) [Kinds K] (Note : Type) (r : Registry K Note) (groups : List Group) (c : Config),
      (Engine.setupWith (empty.after raws) r groups c).outcome.map Engine.withoutCache =
        (Engine.setup r groups c).outcome.map Engine.withoutCache ∧
      (Engine.setupWith (empty.after raws) r groups c).registry = (Engine.setup r groups c).registry ∧
      (Engine.setupWith (empty.after raws) r groups c).notes = (Engine.setup r groups c).notes ∧
      ∀ e, (Engine.setupWith (empty.after raws) r groups c).outcome = .ok e →
        (∃ more, e.cache = empty.after (raws ++ more)) ∧
        ∃ e', (Engine.setup r groups c).outcome = .ok e' ∧ e.index.emissions = e'.index.emissions ∧ e.run = e'.run := by
  refine ⟨map_answers raws, ?_, ?_, fun i e he => after_of_refused he, ?_, ?_, ?_⟩
  · intro i j a b ha hb
    obtain ⟨raw, hraw, hmem, -, hslot⟩ := slot_of_answers ha
    obtain ⟨raw', hraw', -, -, hslot'⟩ := slot_of_answers hb
    rw [hslot, hslot', List.idxOf_inj hmem, hraw, hraw', Option.some.injEq]
  · intro i a ha
    obtain ⟨raw, -, hmem, hread, hslot⟩ := slot_of_answers ha
    rw [hslot]
    exact (sound_empty.after raws).getElem?_idxOf hmem hread
  · have hlen := congrArg List.length (texts_after raws)
    rwa [texts, List.length_map] at hlen
  · intro L order registrations
    exact SelectorIndex.build_congr order (sound_empty.after raws) sound_empty registrations
  · intro K _ Note r groups c
    obtain ⟨houtcome, hregistry, hnotes⟩ := Engine.setupWith_congr (sound_empty.after raws) sound_empty r groups c
    refine ⟨houtcome, hregistry, hnotes, ?_⟩
    intro e he
    constructor
    · obtain ⟨more, hmore⟩ := Engine.cache_of_setupWith he
      exact ⟨more, by rw [hmore, after_append]⟩
    · rw [he] at houtcome
      obtain ⟨e', he', hsame⟩ := Engine.eq_ok_of_map houtcome.symm
      refine ⟨e', he', congrArg (·.index.emissions) hsame.symm, ?_⟩
      change e.withoutCache.run = e'.withoutCache.run
      rw [hsame]

/-- A text that comes twice, one that is no pattern, and one that differs in its direction only. -/
theorem PatternCache.transparent_repeated : ∃ a b c : CachedPattern,
    (empty.answers ["A", "[", "A:exit", "A"])[0]? = some (.ok a) ∧
    (empty.answers ["A", "[", "A:exit", "A"])[2]? = some (.ok b) ∧
    (empty.answers ["A", "[", "A:exit", "A"])[3]? = some (.ok c) ∧
    a.slot = c.slot ∧ a.slot ≠ b.slot ∧ (empty.after ["A", "[", "A:exit", "A"]).size = 2 := by
  have hok : ∀ i : Nat, ((empty.answers ["A", "[", "A:exit", "A"])[i]?.bind Except.toOption).isSome →
      ∃ cached, (empty.answers ["A", "[", "A:exit", "A"])[i]? = some (.ok cached) := by
    intro i hsome
    obtain ⟨cached, hcached⟩ := Option.isSome_iff_exists.1 hsome
    obtain ⟨answer, hanswer, hcached⟩ := Option.bind_eq_some_iff.1 hcached
    exact ⟨cached, by rw [hanswer, eq_ok_of_toOption hcached]⟩
  obtain ⟨a, ha⟩ := hok 0 (by cbv)
  obtain ⟨b, hb⟩ := hok 2 (by cbv)
  obtain ⟨c, hc⟩ := hok 3 (by cbv)
  obtain ⟨-, hslots, -, -, hsize, -⟩ := transparent ["A", "[", "A:exit", "A"]
  have hdistinct : (["A", "[", "A:exit", "A"].filter readable).eraseDups.length = 2 := by cbv
  exact ⟨a, b, c, ha, hb, hc, (hslots 0 3 a c ha hc).2 rfl, fun heq => by simpa using (hslots 0 2 a b ha hb).1 heq,
    hsize.trans hdistinct⟩

end RuleWalk
