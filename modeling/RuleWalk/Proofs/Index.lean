import RuleWalk.Dispatch.Index
import RuleWalk.Proofs.ByteOrder
import RuleWalk.Proofs.Cache
import RuleWalk.Proofs.Lists
import RuleWalk.Proofs.Types

/-!
# The index agrees with a plain scan

An index files each pattern text once, under all types its selector can match, and keeps the listeners of each text in
order. What a visit finds in it is what a scan of all registrations would find: the analysis excludes no type that matches,
and a pattern lies at most once in the two buckets that concern a node.
-/

namespace RuleWalk

variable {L : Type}

/-- The emission of a registration that is heard. -/
def Registration.emission (order : DeliveryOrder) (r : Registration L) : Emission L :=
  ⟨r.owner, r.selector, r.listener, order.rank? r.owner⟩

/-- Whether the analysis lets the pattern match nodes of a node's type. -/
def Pattern.concerns (p : Pattern) (node : Tree) : Bool :=
  p.types.isNone || p.types.any (·.contains (Text.lower node.name))

/-- Whether the pattern asks for this moment of a visit. -/
def Pattern.on (direction : Direction) (p : Pattern) : Bool :=
  p.direction = direction

/-- Whether a node satisfies the pattern; a selector that cannot be evaluated there does not count. -/
def Pattern.holds (p : Pattern) (node : Tree) (ancestry : List Tree) : Bool :=
  match p.selector.matchesAt node ancestry with
  | .ok verdict => verdict
  | .error _ => false

/-- Whether a node satisfies the pattern can be told. -/
def Pattern.Decided (p : Pattern) (node : Tree) (ancestry : List Tree) : Prop :=
  ∃ verdict, p.selector.matchesAt node ancestry = .ok verdict

/-- Whether the pattern of a registration asks for this moment of a visit and holds there. -/
def Registration.hears (r : Registration L) (direction : Direction) (node : Tree) (ancestry : List Tree) : Bool :=
  match Pattern.parse r.selector with
  | .ok p => p.on direction && p.holds node ancestry
  | .error _ => false

/-- The rank of an owner; without a place in the order it is beyond all ranks. -/
def DeliveryOrder.rankOrTop (order : DeliveryOrder) (owner : String) : WithTop ℕ :=
  match order.rank? owner with
  | some rank => rank
  | none => ⊤

/-- What patterns are ordered by: attribute tests, type names, and the bytes of the text. -/
def Pattern.weight (p : Pattern) : ℕ ×ₗ ℕ ×ₗ List ℕ :=
  toLex (p.attributes, toLex (p.identifiers, Text.bytes p.raw))

/-- The weight of a registration's pattern. -/
def Registration.weight (r : Registration L) : ℕ ×ₗ ℕ ×ₗ List ℕ :=
  match Pattern.parse r.selector with
  | .ok p => p.weight
  | .error _ => toLex (0, toLex (0, Text.bytes r.selector))

/-- What decides about a registration's turn before its place does. -/
def Registration.turn (order : DeliveryOrder) (r : Registration L) : WithTop ℕ ×ₗ (ℕ ×ₗ ℕ ×ₗ List ℕ) :=
  toLex (order.rankOrTop r.owner, r.weight)

/-- Whether two registrations differ in nothing that decides about their turns: neither in the rank of their owners nor in
the text of their patterns. -/
def Registration.alike (order : DeliveryOrder) (r r' : Registration L) : Bool :=
  order.rank? r'.owner = order.rank? r.owner ∧ r'.selector = r.selector

/-- What decides about a registration's turn: the rank of its owner, then its weight, and last its place. -/
def Registration.key (order : DeliveryOrder) (hit : Registration L × ℕ) : WithTop ℕ ×ₗ (ℕ ×ₗ ℕ ×ₗ List ℕ) ×ₗ ℕ :=
  toLex (order.rankOrTop hit.1.owner, toLex (hit.1.weight, hit.2))

theorem Pattern.holds_iff {p : Pattern} {node : Tree} {ancestry : List Tree} :
    p.holds node ancestry ↔ p.selector.matchesAt node ancestry = .ok true := by
  unfold holds
  split
  · rename_i verdict h
    cases verdict <;> simp [h]
  · rename_i e h
    simp [h]

/-- A pattern that holds at a node concerns it: the analysis is sound. -/
theorem Pattern.concerns_of_holds (p : Pattern) (htypes : p.types = p.selector.types) {node : Tree} {ancestry : List Tree}
    (h : p.holds node ancestry) : p.concerns node := by
  unfold concerns
  cases ht : p.types with
  | none => rfl
  | some types =>
    have hmem := p.selector.types_sound (htypes.symm.trans ht) (holds_iff.1 h)
    simpa using hmem

/-! ## Buckets -/

namespace Buckets

theorem under_insert (b : Buckets) (type other : String) (patterns : List Pattern) :
    ({ b with typed := Assoc.insert type patterns b.typed } : Buckets).under other =
      if other = type then patterns else b.under other := by
  rw [under, Assoc.lookup_insert, under]
  split <;> rfl

/-- Filing under types that are all different adds the pattern once to each of their buckets. -/
theorem foldl_file_types (p : Pattern) (types : List String) (h : types.Nodup) (b : Buckets) (type : String) :
    let filed := types.foldl (fun b t => { b with typed := Assoc.insert t (b.under t ++ [p]) b.typed }) b
    filed.untyped = b.untyped ∧ filed.under type = if type ∈ types then b.under type ++ [p] else b.under type := by
  induction types generalizing b with
  | nil => exact ⟨rfl, by simp⟩
  | cons t rest ih =>
    obtain ⟨hnew, hrest⟩ := List.nodup_cons.1 h
    obtain ⟨huntyped, hunder⟩ := ih hrest { b with typed := Assoc.insert t (b.under t ++ [p]) b.typed }
    refine ⟨huntyped, hunder.trans ?_⟩
    rw [under_insert]
    by_cases hin : type ∈ rest
    · have hne : type ≠ t := fun heq => hnew (heq ▸ hin)
      simp [hin, hne]
    · by_cases heq : type = t
      · simp [heq, hnew]
      · simp [hin, heq]

/-- A filed pattern joins the bucket for any type, or the buckets of its types. -/
theorem file_spec (b : Buckets) (p : Pattern) (h : ∀ types, p.types = some types → types.Nodup) (type : String) :
    (b.file p).untyped = b.untyped ++ [p].filter (·.types.isNone) ∧
      (b.file p).under type = b.under type ++ [p].filter (·.types.any (·.contains type)) := by
  unfold file
  cases hp : p.types with
  | none => simp [hp, under]
  | some types =>
    obtain ⟨huntyped, hunder⟩ := foldl_file_types p types (h types hp) b type
    refine ⟨huntyped.trans (by simp [hp]), hunder.trans ?_⟩
    by_cases hin : type ∈ types
    · simp [hp, hin]
    · simp [hp, hin]

theorem under_sort (b : Buckets) (type : String) : b.sort.under type = (b.under type).mergeSort Pattern.le := by
  have hlookup : b.sort.typed.lookup type = (b.typed.lookup type).map (·.mergeSort Pattern.le) :=
    lookup_map_value (fun patterns : List Pattern => patterns.mergeSort Pattern.le) b.typed type
  rw [under, under, hlookup]
  cases b.typed.lookup type with
  | none => simp
  | some patterns => rfl

end Buckets

/-! ## The order of specificity -/

namespace Pattern

theorem le_iff_weight {a b : Pattern} : le a b ↔ a.weight ≤ b.weight := by
  simp only [le, specificity, weight, Prod.Lex.toLex_le_toLex, Text.bytes_le_iff]
  rcases Nat.lt_trichotomy a.attributes b.attributes with h | h | h
  · simp [Nat.compare_eq_lt.2 h, h]
  · rw [h]
    rcases Nat.lt_trichotomy a.identifiers b.identifiers with h' | h' | h'
    · simp [Nat.compare_eq_lt.2 h', h']
    · rw [h']
      simp [← compare_le_iff_le, Ordering.isLE_iff_ne_gt]
    · simp [Nat.compare_eq_gt.2 h', Nat.not_lt.2 h'.le, Nat.ne_of_gt h']
  · simp [Nat.compare_eq_gt.2 h, Nat.not_lt.2 h.le, Nat.ne_of_gt h]

/-- Patterns of one weight have one text. -/
theorem raw_eq_of_weight {a b : Pattern} (h : a.weight = b.weight) : a.raw = b.raw :=
  Text.bytes_inj (congrArg (fun weight : ℕ ×ₗ ℕ ×ₗ List ℕ => (ofLex (ofLex weight).2).2) h)

theorem trans_le (a b c : Pattern) (h : le a b) (h' : le b c) : le a c :=
  le_iff_weight.2 (le_trans (le_iff_weight.1 h) (le_iff_weight.1 h'))

theorem total_le (a b : Pattern) : le a b || le b a := by
  rw [Bool.or_eq_true, le_iff_weight, le_iff_weight]
  exact le_total _ _

end Pattern

theorem Registration.weight_of_parse {r : Registration L} {p : Pattern} (h : Pattern.parse r.selector = .ok p) :
    r.weight = p.weight := by
  rw [Registration.weight, h]

theorem Registration.selector_eq_of_weight {r r' : Registration L} (h : r.weight = r'.weight) :
    r.selector = r'.selector := by
  have hbytes : ∀ r : Registration L, (ofLex (ofLex r.weight).2).2 = Text.bytes r.selector := by
    intro r
    unfold Registration.weight
    split
    · rename_i p hp
      rw [← (Pattern.parse_eq_ok hp).1]
      rfl
    · rfl
  exact Text.bytes_inj (by rw [← hbytes, h, hbytes])

theorem Registration.alike_iff {order : DeliveryOrder} {r r' : Registration L} :
    r.alike order r' ↔ r'.turn order = r.turn order := by
  have hrank : order.rankOrTop r'.owner = order.rankOrTop r.owner ↔ order.rank? r'.owner = order.rank? r.owner := by
    unfold DeliveryOrder.rankOrTop
    cases order.rank? r'.owner <;> cases order.rank? r.owner <;> simp
  rw [Registration.alike, Registration.turn, Registration.turn, decide_eq_true_iff, toLex_inj, Prod.mk.injEq, hrank]
  refine and_congr_right fun _ => ⟨fun h => ?_, Registration.selector_eq_of_weight⟩
  rw [Registration.weight, Registration.weight, h]

/-! ## What an index holds -/

namespace SelectorIndex

/-- An index before its buckets are sorted, for some registrations: the listeners of each text in order, and each text's
pattern filed once. -/
structure Indexed (order : DeliveryOrder) (registrations : List (Registration L)) (patterns : List Pattern)
    (index : SelectorIndex L) : Prop where
  listeners : ∀ raw, index.listenersOf raw = (registrations.filter (·.selector = raw)).map (·.emission order)
  nodup : (patterns.map (·.raw)).Nodup
  texts : ∀ raw, raw ∈ patterns.map (·.raw) ↔ ∃ r ∈ registrations, r.selector = raw
  parsed : ∀ p ∈ patterns, Pattern.parse p.raw = .ok p
  untyped : ∀ d, (index.buckets d).untyped = (patterns.filter (·.on d)).filter (·.types.isNone)
  under : ∀ d type, (index.buckets d).under type = (patterns.filter (·.on d)).filter (·.types.any (·.contains type))

theorem listenersOf_listen (index : SelectorIndex L) (raw other : String) (e : Emission L) :
    (index.listen raw e).listenersOf other =
      if other = raw then index.listenersOf raw ++ [e] else index.listenersOf other := by
  rw [listenersOf, listen, Assoc.lookup_insert]
  split <;> rfl

theorem buckets_listen (index : SelectorIndex L) (raw : String) (e : Emission L) (d : Direction) :
    (index.listen raw e).buckets d = index.buckets d := by
  cases d <;> rfl

theorem listenersOf_file (index : SelectorIndex L) (p : Pattern) (raw : String) :
    (index.file p).listenersOf raw = index.listenersOf raw := by
  unfold file
  split <;> rfl

theorem buckets_file (index : SelectorIndex L) (p : Pattern) (d : Direction) :
    (index.file p).buckets d = if p.on d then (index.buckets d).file p else index.buckets d := by
  unfold file
  cases hp : p.direction <;> cases d <;> simp [Pattern.on, hp, buckets]

theorem indexed_empty (order : DeliveryOrder) : Indexed order [] [] ({} : SelectorIndex L) :=
  ⟨fun _ => rfl, List.nodup_nil, by simp, nofun, fun d => by cases d <;> rfl, fun d type => by cases d <;> rfl⟩

/-- A registration adds its listener behind those of its text. -/
theorem Indexed.listeners_snoc {order : DeliveryOrder} {registrations : List (Registration L)} {patterns : List Pattern}
    {index : SelectorIndex L} (h : Indexed order registrations patterns index) (r : Registration L) (raw : String) :
    (index.listen r.selector (r.emission order)).listenersOf raw =
      ((registrations ++ [r]).filter (·.selector = raw)).map (·.emission order) := by
  rw [listenersOf_listen, List.filter_append, List.map_append, ← h.listeners]
  by_cases heq : raw = r.selector
  · subst heq
    simp
  · simp [heq, Ne.symm heq]

/-- A registration under a text that is known changes nothing but the listeners. -/
theorem Indexed.listen {order : DeliveryOrder} {registrations : List (Registration L)} {patterns : List Pattern}
    {index : SelectorIndex L} (h : Indexed order registrations patterns index) {r : Registration L}
    (hknown : r.selector ∈ patterns.map (·.raw)) :
    Indexed order (registrations ++ [r]) patterns (index.listen r.selector (r.emission order)) := by
  refine ⟨h.listeners_snoc r, h.nodup, fun raw => ?_, h.parsed, fun d => ?_, fun d type => ?_⟩
  · rw [h.texts]
    constructor
    · rintro ⟨r', hr', rfl⟩
      exact ⟨r', List.mem_append_left _ hr', rfl⟩
    · rintro ⟨r', hr', rfl⟩
      rcases List.mem_append.1 hr' with hr' | hr'
      · exact ⟨r', hr', rfl⟩
      · obtain rfl := List.mem_singleton.1 hr'
        exact (h.texts _).1 hknown
  · rw [buckets_listen, h.untyped]
  · rw [buckets_listen, h.under]

/-- A registration under a new text files its pattern. -/
theorem Indexed.file {order : DeliveryOrder} {registrations : List (Registration L)} {patterns : List Pattern}
    {index : SelectorIndex L} (h : Indexed order registrations patterns index) {r : Registration L} {p : Pattern}
    (hnew : r.selector ∉ patterns.map (·.raw)) (hp : Pattern.parse r.selector = .ok p) :
    Indexed order (registrations ++ [r]) (patterns ++ [p]) ((index.listen r.selector (r.emission order)).file p) := by
  obtain ⟨hraw, htypes⟩ := Pattern.parse_eq_ok hp
  have hnodup : ∀ types, p.types = some types → types.Nodup := fun types ht =>
    p.selector.nodup_types (htypes.symm.trans ht)
  refine ⟨fun raw => ?_, ?_, fun raw => ?_, fun q hq => ?_, fun d => ?_, fun d type => ?_⟩
  · rw [listenersOf_file, h.listeners_snoc]
  · rw [List.map_append, List.nodup_append]
    refine ⟨h.nodup, List.pairwise_singleton _ _, ?_⟩
    rintro raw hmem _ hlast rfl
    obtain rfl : raw = p.raw := by simpa using hlast
    exact hnew (hraw ▸ hmem)
  · rw [List.map_append, List.mem_append, h.texts]
    constructor
    · rintro (⟨r', hr', rfl⟩ | hlast)
      · exact ⟨r', List.mem_append_left _ hr', rfl⟩
      · obtain rfl : raw = p.raw := by simpa using hlast
        exact ⟨r, by simp, hraw.symm⟩
    · rintro ⟨r', hr', rfl⟩
      rcases List.mem_append.1 hr' with hr' | hr'
      · exact Or.inl ⟨r', hr', rfl⟩
      · obtain rfl := List.mem_singleton.1 hr'
        exact Or.inr (by simp [hraw])
  · rcases List.mem_append.1 hq with hq | hq
    · exact h.parsed q hq
    · obtain rfl := List.mem_singleton.1 hq
      rw [hraw]
      exact hp
  · rw [buckets_file, buckets_listen, List.filter_append, List.filter_append, ← h.untyped]
    by_cases hd : p.on d
    · rw [if_pos hd, (Buckets.file_spec _ p hnodup "").1]
      simp [hd]
    · rw [if_neg hd]
      simp [hd]
  · rw [buckets_file, buckets_listen, List.filter_append, List.filter_append, ← h.under]
    by_cases hd : p.on d
    · rw [if_pos hd, (Buckets.file_spec _ p hnodup type).2]
      simp [hd]
    · rw [if_neg hd]
      simp [hd]

theorem Indexed.isEmpty_iff {order : DeliveryOrder} {registrations : List (Registration L)} {patterns : List Pattern}
    {index : SelectorIndex L} (h : Indexed order registrations patterns index) (raw : String) :
    (index.listenersOf raw).isEmpty ↔ raw ∉ patterns.map (·.raw) := by
  rw [h.listeners, h.texts]
  simp

/-- Adding a registration keeps the index true to what is registered. -/
theorem Indexed.register {order : DeliveryOrder} {registrations : List (Registration L)} {patterns : List Pattern}
    {index index' : SelectorIndex L} {cache cache' : PatternCache} {r : Registration L}
    (h : Indexed order registrations patterns index) (hs : cache.Sound)
    (hr : SelectorIndex.register order (index, cache) r = .ok (index', cache')) :
    ∃ patterns', Indexed order (registrations ++ [r]) patterns' index' ∧ cache'.Sound := by
  unfold SelectorIndex.register at hr
  dsimp only at hr
  split at hr
  · rename_i hempty
    obtain ⟨hparse, hs'⟩ := hs.parse r.selector
    generalize cache.parse r.selector = result at hparse hs' hr
    obtain ⟨_ | cached, cache''⟩ := result
    · cases hr
    · cases hr
      exact ⟨patterns ++ [cached.pattern], h.file ((h.isEmpty_iff _).1 hempty) hparse.symm, hs'⟩
  · rename_i hfull
    cases hr
    exact ⟨patterns, h.listen (by simpa [h.isEmpty_iff] using hfull), hs⟩

theorem indexed_foldlM {order : DeliveryOrder} {index' : SelectorIndex L} {cache' : PatternCache}
    (rest : List (Registration L)) : ∀ {done : List (Registration L)} {patterns : List Pattern} {index : SelectorIndex L}
    {cache : PatternCache}, Indexed order done patterns index → cache.Sound →
    rest.foldlM (SelectorIndex.register order) (index, cache) = .ok (index', cache') →
    ∃ patterns', Indexed order (done ++ rest) patterns' index' := by
  induction rest with
  | nil =>
    intro done patterns index cache h _ hfold
    cases hfold
    exact ⟨patterns, by simpa using h⟩
  | cons r rest ih =>
    intro done patterns index cache h hs hfold
    obtain ⟨⟨index'', cache''⟩, hr, hrest⟩ := foldlM_cons_eq_ok hfold
    obtain ⟨patterns'', h', hs'⟩ := h.register hs hr
    obtain ⟨patterns', hdone⟩ := ih h' hs' hrest
    exact ⟨patterns', by simpa using hdone⟩

/-- The index that is built of registrations: filed, then sorted. -/
def Built (order : DeliveryOrder) (registrations : List (Registration L)) (patterns : List Pattern)
    (index : SelectorIndex L) : Prop :=
  ∃ filed : SelectorIndex L, Indexed order registrations patterns filed ∧
    index = { filed with enter := filed.enter.sort, leave := filed.leave.sort }

theorem built_of_build {order : DeliveryOrder} {cache cache' : PatternCache} {registrations : List (Registration L)}
    {index : SelectorIndex L} (hs : cache.Sound) (h : build order cache registrations = .ok (index, cache')) :
    ∃ patterns, Built order registrations patterns index := by
  unfold build at h
  cases hfold : registrations.foldlM (SelectorIndex.register order) ({}, cache) with
  | error e =>
    rw [hfold] at h
    cases h
  | ok result =>
    obtain ⟨filed, cache''⟩ := result
    rw [hfold] at h
    cases h
    obtain ⟨patterns, hindexed⟩ := indexed_foldlM registrations (indexed_empty order) hs hfold
    exact ⟨patterns, filed, hindexed, rfl⟩

/-- Registrations whose texts can all be read are accepted. -/
theorem build_of_parsed (order : DeliveryOrder) (cache : PatternCache) {registrations : List (Registration L)}
    (h : ∀ r ∈ registrations, ∃ p, Pattern.parse r.selector = .ok p) :
    ∃ index cache', build order cache registrations = .ok (index, cache') := by
  have hfold : ∀ (rest : List (Registration L)) (state : SelectorIndex L × PatternCache), rest ⊆ registrations →
      ∃ state', rest.foldlM (SelectorIndex.register order) state = .ok state' := by
    intro rest
    induction rest with
    | nil => exact fun state _ => ⟨state, rfl⟩
    | cons r rest ih =>
      intro state hsub
      obtain ⟨p, hp⟩ := h r (hsub List.mem_cons_self)
      have hstep : ∃ state', SelectorIndex.register order state r = .ok state' := by
        obtain ⟨cached, cache', hread⟩ := state.2.parse_of_ok hp
        unfold SelectorIndex.register
        dsimp only
        split
        · exact ⟨_, by rw [hread]⟩
        · exact ⟨_, rfl⟩
      obtain ⟨state', hstep⟩ := hstep
      rw [foldlM_cons_of_ok rest hstep]
      exact ih state' fun x hx => hsub (List.mem_cons_of_mem _ hx)
  obtain ⟨⟨filed, cache'⟩, hok⟩ := hfold registrations ({}, cache) (List.Subset.refl _)
  exact ⟨_, cache', by rw [build, hok]; rfl⟩

/-! ## Candidates -/

variable {order : DeliveryOrder} {registrations : List (Registration L)} {patterns : List Pattern}
  {index : SelectorIndex L}

/-- Each text of a registration has its pattern in the index. -/
theorem Built.parsed_of_mem (h : Built order registrations patterns index) {r : Registration L}
    (hr : r ∈ registrations) : ∃ p ∈ patterns, p.raw = r.selector ∧ Pattern.parse r.selector = .ok p := by
  obtain ⟨filed, hfiled, -⟩ := h
  obtain ⟨p, hp, hraw⟩ := List.mem_map.1 ((hfiled.texts r.selector).2 ⟨r, hr, rfl⟩)
  exact ⟨p, hp, hraw, hraw ▸ hfiled.parsed p hp⟩

/-- Each pattern of the index is that of a registration. -/
theorem Built.registered_of_mem (h : Built order registrations patterns index) {p : Pattern} (hp : p ∈ patterns) :
    ∃ r ∈ registrations, Pattern.parse r.selector = .ok p := by
  obtain ⟨filed, hfiled, -⟩ := h
  obtain ⟨r, hr, hraw⟩ := (hfiled.texts p.raw).1 (List.mem_map_of_mem hp)
  exact ⟨r, hr, hraw ▸ hfiled.parsed p hp⟩

theorem Built.listeners (h : Built order registrations patterns index) (raw : String) :
    index.listenersOf raw = (registrations.filter (·.selector = raw)).map (·.emission order) := by
  obtain ⟨filed, hfiled, rfl⟩ := h
  exact hfiled.listeners raw

theorem Built.nodup_raw (h : Built order registrations patterns index) : (patterns.map (·.raw)).Nodup := by
  obtain ⟨filed, hfiled, -⟩ := h
  exact hfiled.nodup

theorem Built.buckets (h : Built order registrations patterns index) (d : Direction) :
    (index.buckets d).untyped = ((patterns.filter (·.on d)).filter (·.types.isNone)).mergeSort Pattern.le ∧
      ∀ type, (index.buckets d).under type =
        ((patterns.filter (·.on d)).filter (·.types.any (·.contains type))).mergeSort Pattern.le := by
  obtain ⟨filed, hfiled, rfl⟩ := h
  have hsorted : ({ filed with enter := filed.enter.sort, leave := filed.leave.sort } : SelectorIndex L).buckets d =
      (filed.buckets d).sort := by
    cases d <;> rfl
  rw [hsorted]
  refine ⟨?_, fun type => ?_⟩
  · rw [← hfiled.untyped]
    rfl
  · rw [← hfiled.under]
    exact Buckets.under_sort _ type

/-- A visit looks at the patterns that concern its node, each once. -/
theorem Built.candidates_perm (h : Built order registrations patterns index) (d : Direction) (node : Tree) :
    ((index.buckets d).candidates node).Perm ((patterns.filter (·.on d)).filter (·.concerns node)) := by
  obtain ⟨huntyped, hunder⟩ := h.buckets d
  rw [Buckets.candidates, huntyped, hunder]
  refine (List.merge_perm_append Pattern.le).trans
    (((List.mergeSort_perm _ _).append (List.mergeSort_perm _ _)).trans ?_)
  have hnodup : (patterns.filter (·.on d)).Nodup := (List.Nodup.of_map _ h.nodup_raw).filter _
  rw [List.perm_ext_iff_of_nodup _ (hnodup.filter _)]
  · intro p
    simp only [List.mem_append, List.mem_filter, Pattern.concerns, Bool.or_eq_true]
    tauto
  · rw [List.nodup_append]
    refine ⟨hnodup.filter _, hnodup.filter _, ?_⟩
    rintro p hp _ hq rfl
    have htyped := (List.mem_filter.1 hp).2
    have hnone := (List.mem_filter.1 hq).2
    rw [Option.isNone_iff_eq_none.1 hnone] at htyped
    cases htyped

/-- No two patterns that a visit looks at have one text. -/
theorem Built.candidates_raw (h : Built order registrations patterns index) (d : Direction) (node : Tree) :
    ((index.buckets d).candidates node).Pairwise fun p q => p.raw ≠ q.raw := by
  refine (h.candidates_perm d node).symm.pairwise ?_ Ne.symm
  have hall : patterns.Pairwise fun p q => p.raw ≠ q.raw := List.pairwise_map.1 h.nodup_raw
  exact (hall.filter _).filter _

/-- A visit looks at its patterns in order of specificity, and no two are alike. -/
theorem Built.candidates_sorted (h : Built order registrations patterns index) (d : Direction) (node : Tree) :
    ((index.buckets d).candidates node).Pairwise fun p q => p.weight < q.weight := by
  have hsorted : ((index.buckets d).candidates node).Pairwise fun p q => Pattern.le p q := by
    obtain ⟨huntyped, hunder⟩ := h.buckets d
    rw [Buckets.candidates, huntyped, hunder]
    exact List.pairwise_merge Pattern.trans_le Pattern.total_le _ _
      (List.pairwise_mergeSort Pattern.trans_le Pattern.total_le _)
      (List.pairwise_mergeSort Pattern.trans_le Pattern.total_le _)
  refine (hsorted.and (h.candidates_raw d node)).imp fun ⟨hle, hne⟩ => ?_
  exact lt_of_le_of_ne (Pattern.le_iff_weight.1 hle) fun heq => hne (Pattern.raw_eq_of_weight heq)

/-! ## Collecting -/

theorem collect_of_decided {node : Tree} {ancestry : List Tree} {candidates : List Pattern}
    (h : ∀ p ∈ candidates, p.Decided node ancestry) : index.collect node ancestry candidates =
      .ok ((candidates.filter (·.holds node ancestry)).flatMap fun p => index.listenersOf p.raw) := by
  induction candidates with
  | nil => rfl
  | cons p rest ih =>
    have hrest := ih fun q hq => h q (List.mem_cons_of_mem _ hq)
    obtain ⟨verdict, hp⟩ := h p List.mem_cons_self
    rw [collect, hp, hrest]
    cases verdict with
    | true => simp [Pattern.holds, hp, bind, Except.bind, pure, Except.pure]
    | false => simp [Pattern.holds, hp, bind, Except.bind]

theorem decided_of_collect {node : Tree} {ancestry : List Tree} {candidates : List Pattern} {found : List (Emission L)}
    (h : index.collect node ancestry candidates = .ok found) : ∀ p ∈ candidates, p.Decided node ancestry := by
  induction candidates generalizing found with
  | nil => exact nofun
  | cons p rest ih =>
    rw [collect] at h
    cases hp : p.selector.matchesAt node ancestry with
    | error e =>
      rw [hp] at h
      cases h
    | ok verdict =>
      rw [hp] at h
      have hrest : ∃ more, index.collect node ancestry rest = .ok more := by
        cases verdict with
        | false => exact ⟨found, h⟩
        | true =>
          cases hmore : index.collect node ancestry rest with
          | error e =>
            rw [hmore] at h
            cases h
          | ok more => exact ⟨more, rfl⟩
      obtain ⟨more, hmore⟩ := hrest
      intro q hq
      rcases List.mem_cons.1 hq with rfl | hq
      · exact ⟨verdict, hp⟩
      · exact ih hmore q hq

/-! ## Hits -/

/-- The registrations under the patterns that hold, pattern by pattern, with their places. -/
def hitsUnder (registrations : List (Registration L)) (candidates : List Pattern) (node : Tree) (ancestry : List Tree) :
    List (Registration L × ℕ) :=
  (candidates.filter (·.holds node ancestry)).flatMap fun p => registrations.zipIdx.filter (·.1.selector = p.raw)

theorem filter_eq_map_zipIdx (l : List (Registration L)) (keep : Registration L → Bool) :
    l.filter keep = (l.zipIdx.filter (keep ·.1)).map Prod.fst := by
  conv => lhs; rw [← List.zipIdx_map_fst 0 l]
  rw [List.filter_map]
  rfl

/-- What a visit collects are the emissions of its hits. -/
theorem Built.collect (h : Built order registrations patterns index) {node : Tree} {ancestry : List Tree}
    {candidates : List Pattern} (hdecided : ∀ p ∈ candidates, p.Decided node ancestry) :
    index.collect node ancestry candidates =
      .ok ((hitsUnder registrations candidates node ancestry).map (·.1.emission order)) := by
  rw [collect_of_decided hdecided, hitsUnder, List.map_flatMap]
  congr 2
  funext p
  rw [h.listeners, filter_eq_map_zipIdx, List.map_map]
  rfl

/-- A registration is heard exactly if its pattern is a candidate that holds. -/
theorem Built.hears_iff (h : Built order registrations patterns index) {d : Direction} {node : Tree}
    {ancestry : List Tree} {r : Registration L} (hr : r ∈ registrations) :
    r.hears d node ancestry ↔
      ∃ p ∈ ((index.buckets d).candidates node).filter (·.holds node ancestry), p.raw = r.selector := by
  obtain ⟨p, hp, hraw, hparse⟩ := h.parsed_of_mem hr
  have hmem : ∀ q, q ∈ ((index.buckets d).candidates node).filter (·.holds node ancestry) ↔
      ((q ∈ patterns ∧ q.on d) ∧ q.concerns node) ∧ q.holds node ancestry := by
    intro q
    rw [List.mem_filter, (h.candidates_perm d node).mem_iff, List.mem_filter, List.mem_filter]
  rw [Registration.hears, hparse]
  simp only [Bool.and_eq_true, hmem]
  constructor
  · rintro ⟨hon, hholds⟩
    exact ⟨p, ⟨⟨⟨hp, hon⟩, p.concerns_of_holds (Pattern.parse_eq_ok hparse).2 hholds⟩, hholds⟩, hraw⟩
  · rintro ⟨q, ⟨⟨⟨hq, hon⟩, -⟩, hholds⟩, hqraw⟩
    obtain rfl : q = p := List.inj_on_of_nodup_map h.nodup_raw hq hp (hqraw.trans hraw.symm)
    exact ⟨hon, hholds⟩

/-- Among the hits of a visit each registration that is heard comes once. -/
theorem Built.hits_perm (h : Built order registrations patterns index) (d : Direction) (node : Tree)
    (ancestry : List Tree) : (hitsUnder registrations ((index.buckets d).candidates node) node ancestry).Perm
      (registrations.zipIdx.filter (·.1.hears d node ancestry)) := by
  have hzip : registrations.zipIdx.Nodup := (pairwise_zipIdx_lt registrations 0).imp fun hlt heq =>
    Nat.ne_of_lt hlt (congrArg Prod.snd heq)
  rw [List.perm_ext_iff_of_nodup _ (hzip.filter _)]
  · rintro ⟨r, i⟩
    simp only [hitsUnder, List.mem_flatMap, List.mem_filter, decide_eq_true_eq]
    constructor
    · rintro ⟨p, hp, hmem, hsel⟩
      exact ⟨hmem, (h.hears_iff (List.fst_mem_of_mem_zipIdx hmem)).2 ⟨p, List.mem_filter.2 hp, hsel.symm⟩⟩
    · rintro ⟨hmem, hhears⟩
      obtain ⟨p, hp, hraw⟩ := (h.hears_iff (List.fst_mem_of_mem_zipIdx hmem)).1 hhears
      exact ⟨p, List.mem_filter.1 hp, hmem, hraw.symm⟩
  · rw [hitsUnder, List.nodup_flatMap]
    refine ⟨fun p _ => hzip.filter _, ((h.candidates_raw d node).filter _).imp fun {p q} hne => ?_⟩
    intro hit hp hq
    have hpraw : hit.1.selector = p.raw := by simpa using (List.mem_filter.1 hp).2
    have hqraw : hit.1.selector = q.raw := by simpa using (List.mem_filter.1 hq).2
    exact hne (hpraw.symm.trans hqraw)

/-- The hits of a visit come in order of weight, and of place where the weight is the same. -/
theorem Built.hits_sorted (h : Built order registrations patterns index) (d : Direction) (node : Tree)
    (ancestry : List Tree) : (hitsUnder registrations ((index.buckets d).candidates node) node ancestry).Pairwise
      fun a b => toLex (a.1.weight, a.2) < toLex (b.1.weight, b.2) := by
  have hweight : ∀ p ∈ ((index.buckets d).candidates node).filter (·.holds node ancestry), ∀ hit : Registration L × ℕ,
      hit ∈ registrations.zipIdx.filter (·.1.selector = p.raw) → hit.1.weight = p.weight := by
    intro p hp hit hhit
    have hraw : hit.1.selector = p.raw := by simpa using (List.mem_filter.1 hhit).2
    have hcand := (h.candidates_perm d node).mem_iff.1 (List.mem_filter.1 hp).1
    have hpat : p ∈ patterns := (List.mem_filter.1 (List.mem_filter.1 hcand).1).1
    obtain ⟨filed, hfiled, -⟩ := h
    exact Registration.weight_of_parse (hraw ▸ hfiled.parsed p hpat)
  rw [hitsUnder, List.pairwise_flatMap]
  constructor
  · intro p hp
    refine ((pairwise_zipIdx_lt registrations 0).filter _).imp_of_mem fun {a b} ha hb hlt => ?_
    rw [Prod.Lex.toLex_lt_toLex, hweight p hp a ha, hweight p hp b hb]
    exact Or.inr ⟨rfl, hlt⟩
  · refine ((h.candidates_sorted d node).filter _).imp_of_mem fun {p q} hp hq hlt a ha b hb => ?_
    rw [Prod.Lex.toLex_lt_toLex, hweight p hp a ha, hweight q hq b hb]
    exact Or.inl hlt

/-! ## Emissions -/

theorem le_iff_rankOrTop {a b : Registration L} :
    Emission.le (a.emission order) (b.emission order) ↔ order.rankOrTop a.owner ≤ order.rankOrTop b.owner := by
  simp only [Emission.le, Registration.emission, DeliveryOrder.rankOrTop]
  cases order.rank? a.owner <;> cases order.rank? b.owner <;> simp

/-- A list of registrations with their places is what a scan gives for a visit: all that are heard, each once, in order of
their keys. -/
structure IsScan (order : DeliveryOrder) (registrations : List (Registration L)) (d : Direction) (node : Tree)
    (ancestry : List Tree) (hits : List (Registration L × ℕ)) : Prop where
  perm : hits.Perm (registrations.zipIdx.filter (·.1.hears d node ancestry))
  sorted : hits.Pairwise fun a b => Registration.key order a < Registration.key order b

/-- If all patterns that concern a node can be evaluated there, the emissions are those of a scan. -/
theorem Built.emissions (h : Built order registrations patterns index) {d : Direction} {node : Tree}
    {ancestry : List Tree} (hdecided : ∀ p ∈ patterns, p.on d → p.concerns node → p.Decided node ancestry) :
    ∃ hits, index.emissions d node ancestry = .ok (hits.map (·.1.emission order)) ∧
      IsScan order registrations d node ancestry hits := by
  let le (a b : Registration L × ℕ) : Bool := Emission.le (a.1.emission order) (b.1.emission order)
  let found := hitsUnder registrations ((index.buckets d).candidates node) node ancestry
  have hcollect : index.collect node ancestry ((index.buckets d).candidates node) =
      .ok (found.map (·.1.emission order)) := by
    refine h.collect fun p hp => ?_
    obtain ⟨hmem, hconcerns⟩ := List.mem_filter.1 ((h.candidates_perm d node).mem_iff.1 hp)
    obtain ⟨hpat, hon⟩ := List.mem_filter.1 hmem
    exact hdecided p hpat hon hconcerns
  have hsort : (found.mergeSort le).map (·.1.emission order) = (found.map (·.1.emission order)).mergeSort Emission.le :=
    List.map_mergeSort fun _ _ _ _ => rfl
  refine ⟨found.mergeSort le, ?_, (List.mergeSort_perm _ _).trans (h.hits_perm d node ancestry), ?_⟩
  · rw [SelectorIndex.emissions, hcollect, hsort]
    rfl
  · have htrans : ∀ a b c, le a b → le b c → le a c := fun a b c hab hbc =>
      le_iff_rankOrTop.2 (le_trans (le_iff_rankOrTop.1 hab) (le_iff_rankOrTop.1 hbc))
    have htotal : ∀ a b, le a b || le b a := fun a b => by
      rw [Bool.or_eq_true, le_iff_rankOrTop, le_iff_rankOrTop]
      exact le_total _ _
    refine (pairwise_mergeSort_stable htrans htotal (h.hits_sorted d node ancestry)).imp fun {a b} ⟨hab, htie⟩ => ?_
    rw [Registration.key, Registration.key, Prod.Lex.toLex_lt_toLex]
    rcases lt_or_eq_of_le (le_iff_rankOrTop.1 hab) with hlt | heq
    · exact Or.inl hlt
    · exact Or.inr ⟨heq, htie (le_iff_rankOrTop.2 heq.ge)⟩

/-- Emissions are only given if all patterns that concern the node can be evaluated there. -/
theorem Built.decided_of_emissions (h : Built order registrations patterns index) {d : Direction} {node : Tree}
    {ancestry : List Tree} {es : List (Emission L)} (hes : index.emissions d node ancestry = .ok es) :
    ∀ p ∈ patterns, p.on d → p.concerns node → p.Decided node ancestry := by
  cases hcollect : index.collect node ancestry ((index.buckets d).candidates node) with
  | error e =>
    rw [SelectorIndex.emissions, hcollect] at hes
    cases hes
  | ok found =>
    intro p hp hon hconcerns
    refine decided_of_collect hcollect p ((h.candidates_perm d node).mem_iff.2 ?_)
    exact List.mem_filter.2 ⟨List.mem_filter.2 ⟨hp, hon⟩, hconcerns⟩

/-! ## Scans -/

theorem key_lt_iff {a b : Registration L × ℕ} : Registration.key order a < Registration.key order b ↔
    a.1.turn order < b.1.turn order ∨ a.1.turn order = b.1.turn order ∧ a.2 < b.2 := by
  simp only [Registration.key, Registration.turn, Prod.Lex.toLex_lt_toLex, toLex_inj, Prod.mk.injEq]
  tauto

/-- Where the turn does not decide, a scan keeps the order of registration. -/
theorem IsScan.filter_eq {d : Direction} {node : Tree} {ancestry : List Tree} {hits : List (Registration L × ℕ)}
    (h : IsScan order registrations d node ancestry hits) (alike : Registration L → Bool)
    (halike : ∀ a b, alike a → alike b → a.turn order = b.turn order) :
    (hits.map Prod.fst).filter alike = (registrations.filter (·.hears d node ancestry)).filter alike := by
  have hplaces : (hits.filter (alike ·.1)).Pairwise fun a b => a.2 < b.2 := by
    refine (h.sorted.filter _).imp_of_mem fun {a b} ha hb hlt => ?_
    have heq := halike _ _ (List.mem_filter.1 ha).2 (List.mem_filter.1 hb).2
    rcases key_lt_iff.1 hlt with hlt | ⟨-, hlt⟩
    · rw [heq] at hlt
      exact absurd hlt (lt_irrefl _)
    · exact hlt
  have hscan := ((pairwise_zipIdx_lt registrations 0).filter (·.1.hears d node ancestry)).filter (alike ·.1)
  have heq := List.Perm.eq_of_pairwise (fun a b _ _ hab hba => absurd hab (Nat.lt_asymm hba)) hplaces hscan
    (h.perm.filter _)
  have hmap := congrArg (List.map Prod.fst) heq
  rw [List.filter_map, filter_eq_map_zipIdx registrations, List.filter_map]
  exact hmap

theorem IsScan.turns_sorted {d : Direction} {node : Tree} {ancestry : List Tree} {hits : List (Registration L × ℕ)}
    (h : IsScan order registrations d node ancestry hits) :
    (hits.map Prod.fst).Pairwise fun a b => a.turn order ≤ b.turn order := by
  rw [List.pairwise_map]
  refine h.sorted.imp fun hlt => ?_
  rcases key_lt_iff.1 hlt with hlt | ⟨heq, -⟩
  · exact hlt.le
  · exact heq.le

/-- The registrations of one owner come in order of weight. -/
theorem IsScan.weights_sorted {d : Direction} {node : Tree} {ancestry : List Tree} {hits : List (Registration L × ℕ)}
    (h : IsScan order registrations d node ancestry hits) (owner : String) :
    ((hits.map Prod.fst).filter (·.owner = owner)).Pairwise fun a b => a.weight ≤ b.weight := by
  refine (h.turns_sorted.filter _).imp_of_mem fun {a b} ha hb hle => ?_
  have howner : a.owner = b.owner :=
    (of_decide_eq_true (List.mem_filter.1 ha).2).trans (of_decide_eq_true (List.mem_filter.1 hb).2).symm
  rw [Registration.turn, Registration.turn, howner, Prod.Lex.toLex_le_toLex] at hle
  rcases hle with hlt | ⟨-, hle⟩
  · exact absurd hlt (lt_irrefl _)
  · exact hle

/-- Scans of lists that hold alike registrations in the same order are the same. -/
theorem IsScan.eq_of_alike {registrations' : List (Registration L)} {d : Direction} {node : Tree} {ancestry : List Tree}
    {hits hits' : List (Registration L × ℕ)} (h : IsScan order registrations d node ancestry hits)
    (h' : IsScan order registrations' d node ancestry hits') (hperm : registrations'.Perm registrations)
    (halike : ∀ r ∈ registrations, registrations'.filter (r.alike order) = registrations.filter (r.alike order)) :
    hits'.map Prod.fst = hits.map Prod.fst := by
  refine eq_of_sorted_of_filter_eq (Registration.turn order) h'.turns_sorted h.turns_sorted fun p hp => ?_
  rw [h'.filter_eq p hp, h.filter_eq p hp, List.filter_comm, List.filter_comm p]
  congr 1
  by_cases hex : ∃ r ∈ registrations, p r
  · obtain ⟨r, hr, hpr⟩ := hex
    have hsplit : ∀ l : List (Registration L), l.filter p = (l.filter (r.alike order)).filter p := by
      intro l
      rw [List.filter_filter]
      refine List.filter_congr fun a _ => ?_
      cases hpa : p a with
      | false => rfl
      | true => rw [Registration.alike_iff.2 (hp a r hpa hpr), Bool.true_and]
    rw [hsplit, halike r hr, ← hsplit]
  · have hnone : registrations.filter p = [] := List.filter_eq_nil_iff.2 fun r hr hpr => hex ⟨r, hr, hpr⟩
    rw [hnone]
    exact List.Perm.eq_nil (hnone ▸ hperm.filter p)

/-- An index agrees with a scan: if all patterns of a direction can be evaluated at a visit, its emissions are those of
the registrations that are heard, each once and in order of their keys. Registering in another order gives the same
emissions, if it keeps the order of registrations that are alike. -/
theorem emissions_eq_scan (order : DeliveryOrder) {cache cache' : PatternCache} {registrations : List (Registration L)}
    {index : SelectorIndex L} (hmade : cache.Made) (hbuild : build order cache registrations = .ok (index, cache'))
    (d : Direction) (node : Tree) (ancestry : List Tree)
    (hdecided : ∀ r ∈ registrations, ∀ p, Pattern.parse r.selector = .ok p → p.on d → p.Decided node ancestry) :
    (∃ hits, index.emissions d node ancestry = .ok (hits.map (·.1.emission order)) ∧
      IsScan order registrations d node ancestry hits) ∧
    ∀ registrations' : List (Registration L), registrations'.Perm registrations →
      (∀ r ∈ registrations, registrations'.filter (r.alike order) = registrations.filter (r.alike order)) →
      ∃ index' cache'', build order cache registrations' = .ok (index', cache'') ∧
        index'.emissions d node ancestry = index.emissions d node ancestry := by
  have hscan : ∀ {registrations' : List (Registration L)} {index' : SelectorIndex L} {cache'' : PatternCache},
      registrations' ⊆ registrations → build order cache registrations' = .ok (index', cache'') →
      ∃ hits, index'.emissions d node ancestry = .ok (hits.map (·.1.emission order)) ∧
        IsScan order registrations' d node ancestry hits := by
    intro registrations' index' cache'' hsub hbuild'
    obtain ⟨patterns, hbuilt⟩ := built_of_build hmade.sound hbuild'
    refine hbuilt.emissions fun p hp hon _ => ?_
    obtain ⟨r, hr, hparse⟩ := hbuilt.registered_of_mem hp
    exact hdecided r (hsub hr) p hparse hon
  obtain ⟨hits, hes, hhits⟩ := hscan (List.Subset.refl _) hbuild
  refine ⟨⟨hits, hes, hhits⟩, fun registrations' hperm halike => ?_⟩
  obtain ⟨patterns, hbuilt⟩ := built_of_build hmade.sound hbuild
  obtain ⟨index', cache'', hbuild'⟩ := build_of_parsed order cache fun r (hr : r ∈ registrations') => by
    obtain ⟨p, -, -, hparse⟩ := hbuilt.parsed_of_mem (hperm.mem_iff.1 hr)
    exact ⟨p, hparse⟩
  obtain ⟨hits', hes', hhits'⟩ := hscan hperm.subset hbuild'
  refine ⟨index', cache'', hbuild', ?_⟩
  have hmap : ∀ hits : List (Registration L × ℕ),
      hits.map (·.1.emission order) = (hits.map Prod.fst).map (Registration.emission order) := fun hits => by simp
  rw [hes, hes', hmap, hmap, hhits.eq_of_alike hhits' hperm halike]

/-- Three listeners of two rules on one node, under patterns for its type and for any type, and the same registered in
another order. -/
theorem emissions_eq_scan_mixed : ∃ index index' cache' cache'',
    build ⟨["base", "top"]⟩ .empty [⟨"B", "top", 0⟩, ⟨"*", "base", 1⟩, ⟨"B", "top", 2⟩] = .ok (index, cache') ∧
    (∃ hits : List (Registration ℕ × ℕ), index.emissions .enter (.node { name := "b" } []) [] =
        .ok (hits.map (·.1.emission ⟨["base", "top"]⟩)) ∧
      IsScan ⟨["base", "top"]⟩ [⟨"B", "top", 0⟩, ⟨"*", "base", 1⟩, ⟨"B", "top", 2⟩] .enter (.node { name := "b" } [])
        [] hits) ∧
    build ⟨["base", "top"]⟩ .empty [⟨"*", "base", 1⟩, ⟨"B", "top", 0⟩, ⟨"B", "top", 2⟩] = .ok (index', cache'') ∧
    index'.emissions .enter (.node { name := "b" } []) [] = index.emissions .enter (.node { name := "b" } []) [] := by
  obtain ⟨b, hb, hdecidedb⟩ : ∃ p, Pattern.parse "B" = .ok p ∧ p.Decided (.node { name := "b" } []) [] :=
    ⟨_, rfl, _, rfl⟩
  obtain ⟨any, hany, hdecidedany⟩ : ∃ p, Pattern.parse "*" = .ok p ∧ p.Decided (.node { name := "b" } []) [] :=
    ⟨_, rfl, _, rfl⟩
  have hparsed : ∀ r ∈ ([⟨"B", "top", 0⟩, ⟨"*", "base", 1⟩, ⟨"B", "top", 2⟩] : List (Registration ℕ)),
      ∃ p, Pattern.parse r.selector = .ok p ∧ p.Decided (.node { name := "b" } []) [] := by
    simp only [List.forall_mem_cons]
    exact ⟨⟨b, hb, hdecidedb⟩, ⟨any, hany, hdecidedany⟩, ⟨b, hb, hdecidedb⟩, nofun⟩
  obtain ⟨index, cache', hbuild⟩ := build_of_parsed ⟨["base", "top"]⟩ .empty fun r hr =>
    (hparsed r hr).imp fun _ hp => hp.1
  obtain ⟨hscan, hsame⟩ := emissions_eq_scan ⟨["base", "top"]⟩ .empty hbuild .enter (.node { name := "b" } []) []
    fun r hr p hp _ => by
      obtain ⟨q, hq, hdecided⟩ := hparsed r hr
      cases hq.symm.trans hp
      exact hdecided
  obtain ⟨index', cache'', hbuild', hemissions⟩ := hsame [⟨"*", "base", 1⟩, ⟨"B", "top", 0⟩, ⟨"B", "top", 2⟩]
    (List.Perm.swap _ _ _) (by
      simp only [List.forall_mem_cons]
      exact ⟨rfl, rfl, rfl, nofun⟩)
  exact ⟨index, index', cache', cache'', hbuild, hscan, hbuild', hemissions⟩

end SelectorIndex

end RuleWalk
