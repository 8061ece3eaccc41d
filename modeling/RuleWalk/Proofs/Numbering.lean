import RuleWalk.Proofs.Instances

/-!
# Listeners by number

An index does not look at its listeners: if they are renamed before it is built, it emits the renamed ones in the same order.
So an engine may keep its visitors in a table, each with the number of its binding, and register their numbers only. Numbers
are given out as visitors are put into the table, so each can be looked up, and what is found is the listener it stands for.
-/

namespace RuleWalk

variable {K : Type} [Kinds K] {Note : Type} {r : Registry K Note}

/-! ## Listeners by another name -/

section Renaming

variable {L M : Type} (f : L → M)

/-- The registration with its listener renamed. -/
def Registration.map (reg : Registration L) : Registration M :=
  ⟨reg.selector, reg.owner, f reg.listener⟩

/-- The emission with its listener renamed. -/
def Emission.map (x : Emission L) : Emission M :=
  ⟨x.owner, x.selector, f x.listener, x.rank⟩

/-- Renaming commutes with an insertion. -/
theorem Assoc.map_insert {κ β γ : Type} [Ord κ] (g : β → γ) (key : κ) (value : β) (map : List (κ × β)) :
    (Assoc.insert key value map).map (fun (k, v) => (k, g v)) =
      Assoc.insert key (g value) (map.map fun (k, v) => (k, g v)) := by
  induction map with
  | nil => rfl
  | cons entry rest ih =>
    obtain ⟨k, v⟩ := entry
    rw [Assoc.insert, List.map_cons, Assoc.insert]
    cases compare key k with
    | lt => rfl
    | eq => rfl
    | gt =>
      dsimp only
      rw [List.map_cons, ih]

namespace SelectorIndex

/-- The index with all listeners renamed. -/
def map (index : SelectorIndex L) : SelectorIndex M where
  enter := index.enter
  leave := index.leave
  listeners := index.listeners.map fun (raw, xs) => (raw, xs.map (Emission.map f))

theorem listenersOf_map (index : SelectorIndex L) (raw : String) :
    (index.map f).listenersOf raw = (index.listenersOf raw).map (Emission.map f) := by
  rw [listenersOf, map, lookup_map_value, listenersOf]
  cases index.listeners.lookup raw <;> rfl

theorem listen_map (index : SelectorIndex L) (raw : String) (x : Emission L) :
    (index.map f).listen raw (x.map f) = (index.listen raw x).map f := by
  simp only [listen, listenersOf_map]
  simp only [map, Assoc.map_insert, List.map_append, List.map_singleton]

theorem file_map (index : SelectorIndex L) (p : Pattern) : (index.map f).file p = (index.file p).map f := by
  unfold file
  split <;> rfl

theorem register_map (order : DeliveryOrder) (index : SelectorIndex L) (cache : PatternCache) (reg : Registration L) :
    register order (index.map f, cache) (reg.map f) =
      (register order (index, cache) reg).map fun (index, cache) => (index.map f, cache) := by
  have hheard : (index.map f).listen reg.selector ⟨reg.owner, reg.selector, f reg.listener, order.rank? reg.owner⟩ =
      (index.listen reg.selector ⟨reg.owner, reg.selector, reg.listener, order.rank? reg.owner⟩).map f :=
    listen_map f index reg.selector ⟨reg.owner, reg.selector, reg.listener, order.rank? reg.owner⟩
  unfold register
  simp only [Registration.map, hheard, listenersOf_map, List.isEmpty_map]
  split
  · obtain ⟨_ | cached, cache'⟩ := cache.parse reg.selector
    · rfl
    · simp only [Except.map, file_map]
  · rfl

/-- An index knows its listeners by the names they were registered with. -/
theorem build_map (order : DeliveryOrder) (cache : PatternCache) (regs : List (Registration L)) :
    build order cache (regs.map (Registration.map f)) =
      (build order cache regs).map fun (index, cache) => (index.map f, cache) := by
  have hfold : ∀ (regs : List (Registration L)) (index : SelectorIndex L) (cache : PatternCache),
      (regs.map (Registration.map f)).foldlM (register order) (index.map f, cache) =
        (regs.foldlM (register order) (index, cache)).map fun (index, cache) => (index.map f, cache) := by
    intro regs
    induction regs with
    | nil => exact fun _ _ => rfl
    | cons reg rest ih =>
      intro index cache
      have hreg := register_map f order index cache reg
      cases hstep : register order (index, cache) reg with
      | error e =>
        rw [hstep] at hreg
        rw [List.map_cons, foldlM_cons_of_error _ hreg, foldlM_cons_of_error rest hstep]
        rfl
      | ok next =>
        rw [hstep] at hreg
        rw [List.map_cons, foldlM_cons_of_ok _ hreg, foldlM_cons_of_ok rest hstep]
        exact ih next.1 next.2
  unfold build
  have hregs := hfold regs {} cache
  change (regs.map (Registration.map f)).foldlM (register order) ({}, cache) = _ at hregs
  rw [hregs]
  cases regs.foldlM (register order) ({}, cache) <;> rfl

theorem collect_map (index : SelectorIndex L) (node : Tree) (ancestry : List Tree) (patterns : List Pattern) :
    (index.map f).collect node ancestry patterns =
      (index.collect node ancestry patterns).map (List.map (Emission.map f)) := by
  induction patterns with
  | nil => rfl
  | cons p rest ih =>
    rw [collect, collect, ih, listenersOf_map]
    cases p.selector.matchesAt node ancestry with
    | error e => rfl
    | ok verdict =>
      cases verdict with
      | false => rfl
      | true =>
        cases index.collect node ancestry rest with
        | error e => rfl
        | ok found => simp [bind, Except.bind, pure, Except.pure, Except.map]

/-- Emissions come in the same order, whatever the names of the listeners. -/
theorem emissions_map (index : SelectorIndex L) (d : Direction) (node : Tree) (ancestry : List Tree) :
    (index.map f).emissions d node ancestry = (index.emissions d node ancestry).map (List.map (Emission.map f)) := by
  have hbuckets : (index.map f).buckets d = index.buckets d := by cases d <;> rfl
  rw [emissions, emissions, hbuckets, collect_map]
  cases index.collect node ancestry ((index.buckets d).candidates node) with
  | error e => rfl
  | ok found =>
    have hsort : (found.map (Emission.map f)).mergeSort Emission.le =
        (found.mergeSort Emission.le).map (Emission.map f) := by
      rw [List.map_mergeSort]
      exact fun _ _ _ _ => rfl
    simp only [bind, Except.bind, pure, Except.pure, Except.map, hsort]

end SelectorIndex

end Renaming

/-! ## Listeners by number -/

/-- A visitor with the number of its binding. -/
structure Seat (K : Type) [Kinds K] (Note : Type) where
  binding : Nat
  visitor : Visitor K Note

/-- Bindings and visitors in tables that are told by numbers, and what is registered with the numbers of visitors. -/
structure Tables (K : Type) [Kinds K] (Note : Type) where
  bindings : List Binding := []
  seats : List (Seat K Note) := []
  registered : List (Registration Nat) := []

namespace Tables

/-- The tables with one more binding: each of its visitors is registered with the next free number. -/
def bind (r : Registry K Note) (t : Tables K Note) (b : Binding) : Tables K Note where
  bindings := t.bindings ++ [b]
  seats := t.seats ++ (r.buildFor b).made.map fun v => ⟨t.bindings.length, v⟩
  registered := t.registered ++
    ((r.buildFor b).made.zipIdx t.seats.length).map fun (v, number) => ⟨v.selector, b.tag.rule, number⟩

/-- The tables of some bindings. -/
def ofBindings (r : Registry K Note) (bindings : List Binding) : Tables K Note :=
  bindings.foldl (bind r) {}

/-- What a number stands for: the visitor of that number, for the binding of the number that stands with it. -/
def listener? (t : Tables K Note) (number : Nat) : Option (Listener K Note) := do
  let seat ← t.seats[number]?
  let binding ← t.bindings[seat.binding]?
  return ⟨binding, seat.visitor⟩

theorem listener?_eq_some_iff {t : Tables K Note} {number : Nat} {l : Listener K Note} :
    t.listener? number = some l ↔
      ∃ place, t.seats[number]? = some ⟨place, l.visitor⟩ ∧ t.bindings[place]? = some l.binding := by
  unfold listener?
  constructor
  · intro h
    obtain ⟨⟨place, visitor⟩, hseat, h⟩ := Option.bind_eq_some_iff.1 h
    obtain ⟨binding, hbinding, h⟩ := Option.bind_eq_some_iff.1 h
    cases h
    exact ⟨place, hseat, hbinding⟩
  · rintro ⟨place, hseat, hbinding⟩
    rw [hseat]
    change (t.bindings[place]?).bind _ = _
    rw [hbinding]
    rfl

/-- What a number stands for stays. -/
theorem listener?_bind {t : Tables K Note} {number : Nat} {l : Listener K Note} (h : t.listener? number = some l)
    (b : Binding) :
    (t.bind r b).listener? number = some l := by
  obtain ⟨place, hseat, hbinding⟩ := listener?_eq_some_iff.1 h
  refine listener?_eq_some_iff.2 ⟨place, ?_, ?_⟩
  · exact List.getElem?_append_left (List.getElem?_eq_some_iff.1 hseat).1 ▸ hseat
  · exact List.getElem?_append_left (List.getElem?_eq_some_iff.1 hbinding).1 ▸ hbinding

/-- A new number stands for its visitor and the new binding. -/
theorem listener?_bind_new {t : Tables K Note} {b : Binding} {v : Visitor K Note} {number : Nat}
    (h : (v, number) ∈ (r.buildFor b).made.zipIdx t.seats.length) : (t.bind r b).listener? number = some ⟨b, v⟩ := by
  obtain ⟨hle, hplace⟩ := List.mk_mem_zipIdx_iff_le_and_getElem?_sub.1 h
  refine listener?_eq_some_iff.2 ⟨t.bindings.length, ?_, ?_⟩
  · rw [bind, List.getElem?_append_right hle, List.getElem?_map, hplace]
    rfl
  · rw [bind, List.getElem?_concat_length]

/-- All that is registered by number can be looked up, and is what the bindings register. -/
theorem registered_ofBindings (r : Registry K Note) (bindings : List Binding) :
    (ofBindings r bindings).bindings = bindings ∧
      (ofBindings r bindings).registered.map (Registration.map (ofBindings r bindings).listener?) =
        (bindings.flatMap r.registrationsFor).map (Registration.map some) := by
  induction bindings using List.reverseRecOn with
  | nil => exact ⟨rfl, rfl⟩
  | append_singleton bindings b ih =>
    have hbind : ofBindings r (bindings ++ [b]) = (ofBindings r bindings).bind r b := List.foldl_concat ..
    obtain ⟨hbindings, hregistered⟩ := ih
    rw [hbind]
    generalize ofBindings r bindings = t at *
    refine ⟨by rw [bind, hbindings], ?_⟩
    rw [List.flatMap_append, List.flatMap_singleton, List.map_append, ← hregistered]
    -- numbers that were given out before stand for what they stood for
    have hold : t.registered.map (Registration.map (t.bind r b).listener?) =
        t.registered.map (Registration.map t.listener?) := by
      refine List.map_congr_left fun reg hreg => ?_
      have hmem : reg.map t.listener? ∈ t.registered.map (Registration.map t.listener?) := List.mem_map_of_mem hreg
      rw [hregistered] at hmem
      obtain ⟨reg', -, heq⟩ := List.mem_map.1 hmem
      have hlistener : t.listener? reg.listener = some reg'.listener := (congrArg Registration.listener heq).symm
      rw [Registration.map, Registration.map, listener?_bind hlistener, hlistener]
    -- the new ones follow the seats that are taken
    have hnew : (((r.buildFor b).made.zipIdx t.seats.length).map fun (v, number) =>
        (⟨v.selector, b.tag.rule, number⟩ : Registration Nat)).map (Registration.map (t.bind r b).listener?) =
        (r.registrationsFor b).map (Registration.map some) := by
      have hmade := List.zipIdx_map_fst t.seats.length (r.buildFor b).made
      rw [List.map_map, Registry.registrationsFor, List.map_map]
      nth_rewrite 2 [← hmade]
      rw [List.map_map]
      refine List.map_congr_left fun numbered hnumbered => ?_
      simp only [Function.comp_apply, Registration.map, listener?_bind_new hnumbered]
    rw [← hnew, ← hold, ← List.map_append]
    rfl

end Tables

end RuleWalk
