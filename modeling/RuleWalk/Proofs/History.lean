import RuleWalk.Proofs.Lists
import RuleWalk.Rule.Bundle

/-!
# Histories of a registry

A registry is what a sequence of calls has made of an empty one: user rules are defined, bundled rules are defined, and rules
are asked for, in any order. What it answers is told by the sequence alone: of the definitions of an id the latest counts, one
by the user before any bundled one, and a bundled rule is loaded by the first call that asks for it and finds no user rule in
its place.
-/

namespace RuleWalk

variable {K : Type} [Kinds K] {Note : Type}

/-- The last occurrence of an entry is all that counts. -/
theorem dedup_concat {α : Type} [DecidableEq α] (l : List α) (x : α) :
    (l ++ [x]).dedup = l.dedup.filter (· != x) ++ [x] := by
  induction l with
  | nil => rfl
  | cons a l ih =>
    rw [List.cons_append]
    by_cases hmem : a ∈ l
    · rw [List.dedup_cons_of_mem (List.mem_append_left _ hmem), List.dedup_cons_of_mem hmem, ih]
    · rw [List.dedup_cons_of_notMem hmem]
      by_cases heq : a = x
      · rw [List.dedup_cons_of_mem (by simp [heq]), ih]
        simp [heq]
      · rw [List.dedup_cons_of_notMem (by simp [hmem, heq]), ih, List.filter_cons_of_pos (by simp [heq])]
        rfl

theorem filterMap_concat {α β : Type} (f : α → Option β) (l : List α) (x : α) :
    (l ++ [x]).filterMap f = l.filterMap f ++ (f x).toList := by
  rw [List.filterMap_append, List.filterMap_cons, List.filterMap_nil]
  cases f x <;> rfl

namespace Registry

/-! ## Calls -/

/-- A call on a registry. -/
inductive Call (K : Type) [Kinds K] (Note : Type) where
  | define (m : RuleModule K Note)
  | bundle (id : String) (m : RuleModule K Note) (notes : List Note)
  | get (id : String)

namespace Call

/-- A user rule of the id is defined. -/
def defines (id : String) : Call K Note → Bool
  | .define m => m.name == id
  | _ => false

/-- A bundled rule of the id is defined. -/
def bundles (id : String) : Call K Note → Bool
  | .bundle other .. => other == id
  | _ => false

/-- The rule of the id is asked for. -/
def asks (id : String) : Call K Note → Bool
  | .get other => other == id
  | _ => false

/-- The name of the user rule that is defined. -/
def defined? : Call K Note → Option String
  | .define m => some m.name
  | _ => none

/-- The id of the bundled rule that is defined. -/
def bundled? : Call K Note → Option String
  | .bundle id .. => some id
  | _ => none

theorem eq_define {id : String} {c : Call K Note} (h : c.defines id) : ∃ m, c = .define m ∧ m.name = id := by
  cases c with
  | define m => exact ⟨m, rfl, by simpa [defines] using h⟩
  | bundle => cases h
  | get => cases h

theorem eq_bundle {id : String} {c : Call K Note} (h : c.bundles id) : ∃ m notes, c = .bundle id m notes := by
  cases c with
  | define => cases h
  | bundle other m notes =>
    obtain rfl : other = id := by simpa [bundles] using h
    exact ⟨m, notes, rfl⟩
  | get => cases h

theorem defined?_eq_some_iff {id : String} {c : Call K Note} : c.defined? = some id ↔ c.defines id := by
  cases c <;> simp [defined?, defines]

theorem bundled?_eq_some_iff {id : String} {c : Call K Note} : c.bundled? = some id ↔ c.bundles id := by
  cases c <;> simp [bundled?, bundles]

theorem asks_iff {id : String} {c : Call K Note} : c.asks id ↔ c = .get id := by
  cases c <;> simp [asks]

end Call

/-- What a call makes of a registry. -/
def step (r : Registry K Note) : Call K Note → Registry K Note
  | .define m => r.define m
  | .bundle id m notes => r.bundle id m notes
  | .get id => (r.get id).2.1

/-- The registry after some calls on an empty one. -/
def after (calls : List (Call K Note)) : Registry K Note :=
  calls.foldl step {}

/-- The notes of loading that the call at a place gives: only a call that asks for a rule can give some. -/
def notesAt (calls : List (Call K Note)) (i : Nat) : List Note :=
  match calls[i]? with
  | some (.get id) => ((after (calls.take i)).get id).2.2
  | _ => []

theorem after_concat (calls : List (Call K Note)) (c : Call K Note) : after (calls ++ [c]) = step (after calls) c :=
  List.foldl_concat ..

/-- The bundled rules are two calls. -/
example : (Registry.standard : Registry (BundledKind K) Note) =
    after [.bundle MeasureCount.ruleId MeasureCount.rule [], .bundle LineNaming.ruleId LineNaming.rule []] := rfl

/-! ## Listings -/

/-- A registry in which the bundled rule of an id is loaded. -/
def marked (r : Registry K Note) (id : String) : Registry K Note :=
  { r with bundled := r.bundled.map fun b => if b.id == id then { b with loaded := true } else b }

/-- What asking for a rule does: nothing, if a user rule stands in front or there is nothing to load; else it loads the rule. -/
theorem load_cases (r : Registry K Note) (id : String) :
    r.load id = (r, []) ∧ (r.user.contains id ∨ ∀ b, r.bundledRule? id = some b → b.loaded) ∨
    ∃ b, r.user.contains id = false ∧ r.bundledRule? id = some b ∧ b.loaded = false ∧
      r.load id = (r.marked id, b.notes) := by
  unfold load
  cases huser : r.user.contains id with
  | true => exact Or.inl ⟨rfl, Or.inl rfl⟩
  | false =>
    cases hb : r.bundledRule? id with
    | none => exact Or.inl ⟨rfl, Or.inr (by simp)⟩
    | some b =>
      cases hloaded : b.loaded with
      | true =>
        refine Or.inl ⟨by simp [hloaded], Or.inr ?_⟩
        rintro other heq
        cases heq
        exact hloaded
      | false => exact Or.inr ⟨b, rfl, rfl, hloaded, by simp [hloaded, marked]⟩

theorem marked_ids (r : Registry K Note) (id : String) : (r.marked id).bundled.map (·.id) = r.bundled.map (·.id) := by
  rw [marked, List.map_map]
  refine List.map_congr_left fun b _ => ?_
  simp only [Function.comp_apply]
  split <;> rfl

/-- Asking for a rule changes no user rule and no id. -/
theorem load_frame (r : Registry K Note) (id : String) : (r.load id).1.user = r.user ∧ (r.load id).1.order = r.order ∧
    (r.load id).1.bundled.map (·.id) = r.bundled.map (·.id) := by
  rcases load_cases r id with ⟨hload, -⟩ | ⟨b, -, -, -, hload⟩
  · rw [hload]
    exact ⟨rfl, rfl, rfl⟩
  · rw [hload]
    exact ⟨rfl, rfl, marked_ids r id⟩

theorem id_of_bundledRule? {r : Registry K Note} {id : String} {b : Bundled K Note} (h : r.bundledRule? id = some b) :
    b.id = id := by
  simpa using List.find?_some h

theorem mem_bundled_iff {r : Registry K Note} {id : String} : id ∈ r.bundled.map (·.id) ↔ (r.bundledRule? id).isSome := by
  simp [bundledRule?]

theorem isSome_get_iff {r : Registry K Note} {id : String} : (r.get id).1.isSome ↔ r.contains id := by
  simp only [get, find?, contains, Dict.contains]
  cases r.user.find? id <;> simp

/-- Only the definition of a user rule changes the names in the map: one that is new is put at the end. -/
theorem names_step (r : Registry K Note) (c : Call K Note) : (step r c).user.keys =
    match c.defined? with
    | some name => if name ∈ r.user.keys then r.user.keys else r.user.keys ++ [name]
    | none => r.user.keys := by
  cases c with
  | define m => exact r.user.keys_insert m.name m
  | bundle id m notes => rfl
  | get id => exact congrArg Dict.keys (load_frame r id).1

/-- The order of the user rules and their map agree: a definition that is new to the map is put in the order, and no other. -/
theorem order_step {r : Registry K Note} (h : r.order = r.user.keys) (c : Call K Note) :
    (step r c).order = (step r c).user.keys := by
  cases c with
  | define m =>
    have hnames : (step r (.define m)).user.keys = _ := r.user.keys_insert m.name m
    rw [hnames]
    simp only [step, define, Dict.contains_iff, h]
  | bundle id m notes => exact h
  | get id =>
    obtain ⟨huser, horder, -⟩ := load_frame r id
    exact horder.trans (h.trans (congrArg Dict.keys huser.symm))

theorem order_after (calls : List (Call K Note)) : (after calls).order = (after calls).user.keys := by
  induction calls using List.reverseRecOn with
  | nil => rfl
  | append_singleton calls c ih =>
    rw [after_concat]
    exact order_step ih c

/-- Only the definition of a bundled rule changes the ids: it is taken out and put at the end. -/
theorem bundledIds_step (r : Registry K Note) (c : Call K Note) : (step r c).bundled.map (·.id) =
    match c.bundled? with
    | some id => (r.bundled.map (·.id)).filter (· != id) ++ [id]
    | none => r.bundled.map (·.id) := by
  cases c with
  | define m => rfl
  | bundle id m notes =>
    simp only [step, bundle, Call.bundled?, List.map_append, List.filter_map]
    rfl
  | get id => exact (load_frame r id).2.2

/-- User rules are listed in the order in which they were first defined. -/
theorem names_after (calls : List (Call K Note)) :
    (after calls).user.keys = (calls.filterMap Call.defined?).eraseDups := by
  induction calls using List.reverseRecOn with
  | nil => rfl
  | append_singleton calls c ih =>
    rw [after_concat, names_step, ih, filterMap_concat]
    cases c.defined? with
    | none => simp
    | some name =>
      rw [Option.toList_some, eraseDups_concat]
      simp only [List.mem_eraseDups]

/-- Bundled rules are listed in the order in which they were last defined. -/
theorem bundledIds_after (calls : List (Call K Note)) :
    (after calls).bundled.map (·.id) = (calls.filterMap Call.bundled?).dedup := by
  induction calls using List.reverseRecOn with
  | nil => rfl
  | append_singleton calls c ih =>
    rw [after_concat, bundledIds_step, ih, filterMap_concat]
    cases c.bundled? with
    | none => simp
    | some id => rw [Option.toList_some, dedup_concat]

theorem nodup_bundled (calls : List (Call K Note)) : ((after calls).bundled.map (·.id)).Nodup := by
  rw [bundledIds_after]
  exact List.nodup_dedup _

/-- The ids of a registry, by its history. -/
theorem ids_after (calls : List (Call K Note)) : (after calls).ids =
    (calls.filterMap Call.bundled?).dedup ++
      (calls.filterMap Call.defined?).eraseDups.filter (· ∉ calls.filterMap Call.bundled?) := by
  rw [ids, order_after, names_after, bundledIds_after]
  refine congrArg _ (List.filter_congr fun id _ => ?_)
  rw [List.contains_eq_mem, ← decide_not]
  simp only [List.mem_dedup]

/-- A rule is contained just if its id is listed. -/
theorem contains_iff_mem_ids {calls : List (Call K Note)} {id : String} :
    (after calls).contains id ↔ id ∈ (after calls).ids := by
  simp only [contains, ids, order_after, Bool.or_eq_true, Dict.contains_iff, ← mem_bundled_iff, List.mem_append,
    List.mem_filter, List.contains_eq_mem, Bool.not_eq_true', decide_eq_false_iff_not]
  tauto

theorem nodup_ids (calls : List (Call K Note)) : (after calls).ids.Nodup := by
  rw [ids_after, List.nodup_append]
  refine ⟨List.nodup_dedup _, (nodup_eraseDups _).filter _, ?_⟩
  intro id hid other hother
  rintro rfl
  have hnot := (List.mem_filter.1 hother).2
  rw [List.mem_dedup] at hid
  simp [hid] at hnot

/-! ## Last calls -/

theorem mem_drop_of_getElem? {calls : List (Call K Note)} {c : Call K Note} {j k : Nat} (h : calls[k]? = some c) (hlt : j < k) :
    c ∈ calls.drop (j + 1) := by
  rw [List.mem_iff_getElem?]
  refine ⟨k - (j + 1), ?_⟩
  have hplace : j + 1 + (k - (j + 1)) = k := by omega
  rw [List.getElem?_drop, hplace, h]

/-- The call at a place is the last of a kind. -/
structure Last (calls : List (Call K Note)) (kind : Call K Note → Bool) (j : Nat) (c : Call K Note) : Prop where
  call : calls[j]? = some c
  ofKind : kind c
  last : ∀ later ∈ calls.drop (j + 1), kind later = false

theorem last_concat {calls : List (Call K Note)} {kind : Call K Note → Bool} {j : Nat} {c d : Call K Note} :
    Last (calls ++ [c]) kind j d ↔ kind c ∧ j = calls.length ∧ d = c ∨ kind c = false ∧ Last calls kind j d := by
  constructor
  · rintro ⟨hcall, hkind, hlast⟩
    rcases Nat.lt_trichotomy j calls.length with hlt | rfl | hgt
    · rw [List.getElem?_append_left hlt] at hcall
      rw [List.drop_append_of_le_length (by omega)] at hlast
      refine Or.inr ⟨hlast c (by simp), hcall, hkind, ?_⟩
      intro later hlater
      exact hlast later (List.mem_append_left _ hlater)
    · rw [List.getElem?_concat_length] at hcall
      cases hcall
      exact Or.inl ⟨hkind, rfl, rfl⟩
    · rw [List.getElem?_eq_none (by simp; omega)] at hcall
      cases hcall
  · rintro (⟨hkind, rfl, rfl⟩ | ⟨hkind, hcall, hkind', hlast⟩)
    · exact ⟨by simp, hkind, by simp⟩
    · obtain ⟨hlt, -⟩ := List.getElem?_eq_some_iff.1 hcall
      refine ⟨by rwa [List.getElem?_append_left hlt], hkind', ?_⟩
      rw [List.drop_append_of_le_length (by omega)]
      intro later hlater
      rcases List.mem_append.1 hlater with hlater | hlater
      · exact hlast later hlater
      · rwa [List.mem_singleton.1 hlater]

theorem Last.lt_length {calls : List (Call K Note)} {kind : Call K Note → Bool} {j : Nat} {c : Call K Note}
    (h : Last calls kind j c) : j < calls.length :=
  (List.getElem?_eq_some_iff.1 h.call).1

theorem Last.unique {calls : List (Call K Note)} {kind : Call K Note → Bool} {j j' : Nat} {c c' : Call K Note}
    (h : Last calls kind j c) (h' : Last calls kind j' c') : j = j' ∧ c = c' := by
  have hnot : ∀ {j j' : Nat} {c c' : Call K Note}, Last calls kind j c → Last calls kind j' c' → ¬j < j' := by
    intro j j' c c' h h' hlt
    have hmem : c' ∈ calls.drop (j + 1) := mem_drop_of_getElem? h'.call hlt
    have hkind := h'.ofKind
    rw [h.last c' hmem] at hkind
    cases hkind
  obtain rfl : j = j' := Nat.le_antisymm (Nat.not_lt.1 (hnot h' h)) (Nat.not_lt.1 (hnot h h'))
  exact ⟨rfl, Option.some.inj (h.call.symm.trans h'.call)⟩

/-- The last call of a kind is the last of it among the calls up to any later place. -/
theorem Last.take {calls : List (Call K Note)} {kind : Call K Note → Bool} {j i : Nat} {c : Call K Note}
    (h : Last calls kind j c) (hi : j < i) : Last (calls.take i) kind j c := by
  refine ⟨by rw [List.getElem?_take_of_lt hi, h.call], h.ofKind, ?_⟩
  intro later hlater
  rw [List.drop_take] at hlater
  exact h.last later (List.mem_of_mem_take hlater)

/-! ## Look-ups -/

theorem user_define (r : Registry K Note) (m : RuleModule K Note) (id : String) :
    (r.define m).user.find? id = if id = m.name then some m else r.user.find? id :=
  r.user.find?_insert m.name m id

/-- Only its definition changes the user rule of an id. -/
theorem user_step_of_not (r : Registry K Note) {c : Call K Note} {id : String} (h : c.defines id = false) :
    (step r c).user.find? id = r.user.find? id := by
  cases c with
  | define m =>
    have hne : id ≠ m.name := by
      rintro rfl
      simp [Call.defines] at h
    rw [step, user_define, if_neg hne]
  | bundle => rfl
  | get other => exact congrArg (·.find? id) (load_frame r other).1

theorem bundledRule?_bundle (r : Registry K Note) (other : String) (m : RuleModule K Note) (notes : List Note) (id : String) :
    (r.bundle other m notes).bundledRule? id = if other = id then some { id, module := m, notes } else r.bundledRule? id := by
  have hkept : (r.bundled.filter (·.id != other)).find? (·.id == id) = if other = id then none else r.bundledRule? id := by
    rw [List.find?_filter]
    by_cases hid : other = id
    · subst hid
      simp
    · rw [if_neg hid, bundledRule?]
      congr 1
      funext b
      by_cases hb : b.id = id
      · simp [hb, Ne.symm hid]
      · simp [hb]
  rw [bundle, bundledRule?, List.find?_append, hkept]
  by_cases hid : other = id
  · subst hid
    simp
  · simp [hid]

theorem bundledRule?_marked (r : Registry K Note) (other id : String) : (r.marked other).bundledRule? id =
    if other = id then (r.bundledRule? id).map ({ · with loaded := true }) else r.bundledRule? id := by
  have hid : ∀ b : Bundled K Note, ((if b.id == other then { b with loaded := true } else b).id == id) = (b.id == id) := by
    intro b
    split <;> rfl
  rw [marked, bundledRule?, List.find?_map]
  simp only [Function.comp_def, hid]
  rw [← bundledRule?]
  cases hb : r.bundledRule? id with
  | none => simp
  | some b =>
    by_cases heq : other = id
    · simp [id_of_bundledRule? hb, heq]
    · simp [id_of_bundledRule? hb, heq, Ne.symm heq]

/-- Asking for a rule while there is no user rule leaves it loaded. -/
theorem bundledRule?_get (r : Registry K Note) (other id : String) : (r.get other).2.1.bundledRule? id =
    if other = id ∧ r.user.contains id = false then (r.bundledRule? id).map ({ · with loaded := true })
    else r.bundledRule? id := by
  rw [get]
  rcases load_cases r other with ⟨hload, hidle⟩ | ⟨b, huser, -, -, hload⟩
  · rw [hload]
    split_ifs with hget
    · -- the rule is loaded already, if there is one
      obtain ⟨rfl, hnone⟩ := hget
      rcases hidle with huser | hloaded
      · rw [hnone] at huser
        cases huser
      · cases hb : r.bundledRule? other with
        | none => rfl
        | some b =>
          obtain ⟨id, m, notes, loaded⟩ := b
          cases hloaded _ hb
          rfl
    · rfl
  · rw [hload, bundledRule?_marked]
    by_cases heq : other = id
    · subst heq
      simp [huser]
    · simp [heq]

/-- Only its definition and asking for it change the bundled rule of an id. -/
theorem bundledRule?_step_of_not (r : Registry K Note) {c : Call K Note} {id : String} (h : c.bundles id = false)
    (h' : c.asks id = false) : (step r c).bundledRule? id = r.bundledRule? id := by
  cases c with
  | define m => rfl
  | bundle other m notes => rw [step, bundledRule?_bundle, if_neg (by simpa [Call.bundles] using h)]
  | get other =>
    have hne : other ≠ id := by simpa [Call.asks] using h'
    rw [step, bundledRule?_get, if_neg fun hget => hne hget.1]

/-- The user rule of an id is the one defined last. -/
theorem user_after {calls : List (Call K Note)} {id : String} {m : RuleModule K Note} :
    (after calls).user.find? id = some m ↔ ∃ j, Last calls (Call.defines id) j (.define m) := by
  induction calls using List.reverseRecOn with
  | nil =>
    constructor
    · intro h
      cases h
    · rintro ⟨j, h⟩
      cases h.call
  | append_singleton calls c ih =>
    simp only [after_concat, last_concat]
    cases hc : c.defines id with
    | true =>
      obtain ⟨m', rfl, rfl⟩ := Call.eq_define hc
      simp [step, user_define, eq_comm]
    | false => simp [user_step_of_not _ hc, ih]

/-- There is no user rule of an id as long as none was defined. -/
theorem no_user_iff {calls : List (Call K Note)} {id : String} :
    (after calls).user.contains id = false ↔ ∀ c ∈ calls, c.defines id = false := by
  rw [← Bool.not_eq_true, Dict.contains_iff, names_after, List.mem_eraseDups, List.mem_filterMap]
  simp only [Call.defined?_eq_some_iff, not_exists, not_and, Bool.not_eq_true]

/-! ## Loading -/

/-- The bundled rule of an id defined at `j` is loaded at `i`: there it is asked for, is the latest of its id, was not asked for
since it was defined, and no user rule of the id was defined before. -/
structure LoadsAt (calls : List (Call K Note)) (id : String) (j i : Nat) : Prop where
  asks : calls[i]? = some (.get id)
  latest : ∃ c, Last (calls.take i) (Call.bundles id) j c
  first : ∀ c ∈ (calls.take i).drop (j + 1), c.asks id = false
  unshadowed : ∀ c ∈ calls.take i, c.defines id = false

theorem LoadsAt.lt {calls : List (Call K Note)} {id : String} {j i : Nat} (h : LoadsAt calls id j i) : j < i := by
  obtain ⟨c, hc⟩ := h.latest
  have := hc.lt_length
  rw [List.length_take] at this
  omega

theorem LoadsAt.lt_length {calls : List (Call K Note)} {id : String} {j i : Nat} (h : LoadsAt calls id j i) :
    i < calls.length :=
  (List.getElem?_eq_some_iff.1 h.asks).1

/-- A definition is loaded at most once. -/
theorem LoadsAt.unique {calls : List (Call K Note)} {id : String} {j i i' : Nat} (h : LoadsAt calls id j i)
    (h' : LoadsAt calls id j i') : i = i' := by
  have hnot : ∀ {i i' : Nat}, LoadsAt calls id j i → LoadsAt calls id j i' → ¬i < i' := by
    intro i i' h h' hlt
    have hmem : Call.get id ∈ (calls.take i').drop (j + 1) :=
      mem_drop_of_getElem? (by rw [List.getElem?_take_of_lt hlt, h.asks]) h.lt
    have := h'.first _ hmem
    simp [Call.asks] at this
  rcases Nat.lt_trichotomy i i' with hlt | heq | hgt
  · exact absurd hlt (hnot h h')
  · exact heq
  · exact absurd hgt (hnot h' h)

/-- What is loaded stays loaded, and the call put at the end can load what was latest and not asked for. -/
theorem loadsAt_concat {calls : List (Call K Note)} {c : Call K Note} {id : String} {j i : Nat} :
    LoadsAt (calls ++ [c]) id j i ↔ LoadsAt calls id j i ∨ i = calls.length ∧ c = .get id ∧
      (∃ d, Last calls (Call.bundles id) j d) ∧ (∀ d ∈ calls.drop (j + 1), d.asks id = false) ∧
      ∀ d ∈ calls, d.defines id = false := by
  have htake : ∀ {i : Nat}, i ≤ calls.length → (calls ++ [c]).take i = calls.take i :=
    fun h => List.take_append_of_le_length h
  constructor
  · intro h
    have hlen := h.lt_length
    rw [List.length_append, List.length_singleton] at hlen
    obtain ⟨hasks, hlatest, hfirst, hclear⟩ := h
    rw [htake (by omega)] at hlatest hfirst hclear
    rcases Nat.lt_or_ge i calls.length with hlt | hge
    · rw [List.getElem?_append_left hlt] at hasks
      exact Or.inl ⟨hasks, hlatest, hfirst, hclear⟩
    · obtain rfl : i = calls.length := by omega
      rw [List.getElem?_concat_length] at hasks
      rw [List.take_length] at hlatest hfirst hclear
      exact Or.inr ⟨rfl, Option.some.inj hasks, hlatest, hfirst, hclear⟩
  · rintro (h | ⟨rfl, rfl, hlatest, hfirst, hclear⟩)
    · have hlt := h.lt_length
      have hbefore := htake hlt.le
      exact ⟨by rw [List.getElem?_append_left hlt, h.asks], hbefore ▸ h.latest, hbefore ▸ h.first, hbefore ▸ h.unshadowed⟩
    · have hbefore : (calls ++ [Call.get id]).take calls.length = calls := List.take_left
      refine ⟨List.getElem?_concat_length, ?_, ?_, ?_⟩
      · rwa [hbefore]
      · rwa [hbefore]
      · rwa [hbefore]

/-- A definition that was asked for while no user rule stood in front was loaded, by the first such call. -/
theorem exists_loadsAt {calls : List (Call K Note)} {id : String} {j : Nat} {d : Call K Note}
    (hlast : Last calls (Call.bundles id) j d) (hasked : ∃ c ∈ calls.drop (j + 1), c.asks id)
    (hclear : ∀ c ∈ calls, c.defines id = false) : ∃ i, LoadsAt calls id j i := by
  let n := (calls.drop (j + 1)).findIdx (Call.asks id)
  have hn : n < (calls.drop (j + 1)).length := List.findIdx_lt_length.2 hasked
  refine ⟨j + 1 + n, ?_, ⟨d, hlast.take (by omega)⟩, ?_, ?_⟩
  · have hget : (calls.drop (j + 1))[n] = .get id := Call.asks_iff.1 (List.findIdx_getElem (w := hn))
    rw [← List.getElem?_drop, List.getElem?_eq_getElem hn, hget]
  · intro c hc
    rw [List.drop_take, Nat.add_sub_cancel_left] at hc
    obtain ⟨k, hk, rfl⟩ := List.mem_take_iff_getElem.1 hc
    exact List.not_of_lt_findIdx (by omega)
  · intro c hc
    exact hclear c (List.mem_of_mem_take hc)

/-- What is known of the bundled rule of an id: the definition it comes from, the latest, and whether that was loaded. -/
structure Comes (calls : List (Call K Note)) (id : String) (b : Bundled K Note) (j : Nat) : Prop where
  latest : Last calls (Call.bundles id) j (.bundle id b.module b.notes)
  loaded : b.loaded ↔ ∃ i, LoadsAt calls id j i

/-- A call that neither defines the rule nor asks for it changes nothing. -/
theorem Comes.other {calls : List (Call K Note)} {id : String} {b : Bundled K Note} {j : Nat} (h : Comes calls id b j)
    {c : Call K Note} (hbundles : c.bundles id = false) (hasks : c.asks id = false) : Comes (calls ++ [c]) id b j := by
  refine ⟨last_concat.2 (Or.inr ⟨hbundles, h.latest⟩), ?_⟩
  have hnot : c ≠ .get id := by
    intro heq
    rw [Call.asks_iff.2 heq] at hasks
    cases hasks
  simp [loadsAt_concat, hnot, h.loaded]

/-- A definition is not loaded when it is made. -/
theorem comes_bundle (calls : List (Call K Note)) (id : String) (m : RuleModule K Note) (notes : List Note) :
    Comes (calls ++ [.bundle id m notes]) id { id, module := m, notes } calls.length := by
  refine ⟨last_concat.2 (Or.inl ⟨by simp [Call.bundles], rfl, rfl⟩), ?_⟩
  simp only [Bool.false_eq_true, false_iff, not_exists]
  intro i h
  have hlen := h.lt_length
  have hlt := h.lt
  rw [List.length_append, List.length_singleton] at hlen
  omega

/-- In the shadow of a user rule asking loads nothing. -/
theorem Comes.shadowed {calls : List (Call K Note)} {id : String} {b : Bundled K Note} {j : Nat} (h : Comes calls id b j)
    (hshadow : ¬∀ c ∈ calls, c.defines id = false) : Comes (calls ++ [.get id]) id b j := by
  refine ⟨last_concat.2 (Or.inr ⟨rfl, h.latest⟩), ?_⟩
  simp only [loadsAt_concat, h.loaded]
  constructor
  · rintro ⟨i, hi⟩
    exact ⟨i, Or.inl hi⟩
  · rintro ⟨i, hi | ⟨-, -, -, -, hclear⟩⟩
    · exact ⟨i, hi⟩
    · exact absurd hclear hshadow

/-- Where no user rule is in front asking leaves the rule loaded, by this call or an earlier one. -/
theorem Comes.asked {calls : List (Call K Note)} {id : String} {b : Bundled K Note} {j : Nat} (h : Comes calls id b j)
    (hclear : ∀ c ∈ calls, c.defines id = false) : Comes (calls ++ [.get id]) id { b with loaded := true } j := by
  refine ⟨last_concat.2 (Or.inr ⟨rfl, h.latest⟩), ?_⟩
  simp only [true_iff]
  by_cases hasked : ∃ c ∈ calls.drop (j + 1), c.asks id
  · obtain ⟨i, hi⟩ := exists_loadsAt h.latest hasked hclear
    exact ⟨i, loadsAt_concat.2 (Or.inl hi)⟩
  · refine ⟨calls.length, loadsAt_concat.2 (Or.inr ⟨rfl, rfl, ⟨_, h.latest⟩, ?_, hclear⟩)⟩
    intro c hc
    simpa using fun hask => hasked ⟨c, hc, hask⟩

/-- The bundled rule of an id comes from its latest definition. -/
theorem comes_after {calls : List (Call K Note)} {id : String} {b : Bundled K Note}
    (h : (after calls).bundledRule? id = some b) :
    ∃ j, Comes calls id b j := by
  induction calls using List.reverseRecOn generalizing b with
  | nil => cases h
  | append_singleton calls c ih =>
    rw [after_concat] at h
    cases hbundles : c.bundles id with
    | true =>
      obtain ⟨m, notes, rfl⟩ := Call.eq_bundle hbundles
      rw [step, bundledRule?_bundle, if_pos rfl] at h
      cases h
      exact ⟨calls.length, comes_bundle calls id m notes⟩
    | false =>
      cases hasks : c.asks id with
      | false =>
        rw [bundledRule?_step_of_not _ hbundles hasks] at h
        obtain ⟨j, hj⟩ := ih h
        exact ⟨j, hj.other hbundles hasks⟩
      | true =>
        obtain rfl := Call.asks_iff.1 hasks
        rw [step, bundledRule?_get] at h
        split_ifs at h with hget
        · obtain ⟨b', hb', rfl⟩ := Option.map_eq_some_iff.1 h
          obtain ⟨j, hj⟩ := ih hb'
          exact ⟨j, hj.asked (no_user_iff.1 hget.2)⟩
        · obtain ⟨j, hj⟩ := ih h
          exact ⟨j, hj.shadowed fun hclear => hget ⟨rfl, no_user_iff.2 hclear⟩⟩

/-- The latest definition of a bundled rule is the one that is looked up. -/
theorem bundledRule?_of_last {calls : List (Call K Note)} {id : String} {j : Nat} {c : Call K Note}
    (h : Last calls (Call.bundles id) j c) :
    ∃ b, (after calls).bundledRule? id = some b ∧ Comes calls id b j ∧ c = .bundle id b.module b.notes := by
  have hsome : ((after calls).bundledRule? id).isSome := by
    rw [← mem_bundled_iff, bundledIds_after, List.mem_dedup, List.mem_filterMap]
    exact ⟨c, List.mem_of_getElem? h.call, Call.bundled?_eq_some_iff.2 h.ofKind⟩
  obtain ⟨b, hb⟩ := Option.isSome_iff_exists.1 hsome
  obtain ⟨j', hcomes⟩ := comes_after hb
  obtain ⟨rfl, rfl⟩ := h.unique hcomes.latest
  exact ⟨b, hb, hcomes, rfl⟩

/-- What is loaded by a beginning of the calls is loaded by all of them. -/
theorem LoadsAt.of_take {calls : List (Call K Note)} {id : String} {n j i : Nat} (h : LoadsAt (calls.take n) id j i) :
    LoadsAt calls id j i := by
  have hlt := h.lt_length
  rw [List.length_take] at hlt
  obtain ⟨hasks, hlatest, hfirst, hclear⟩ := h
  rw [List.take_take, Nat.min_eq_left (by omega)] at hlatest hfirst hclear
  rw [List.getElem?_take_of_lt (by omega)] at hasks
  exact ⟨hasks, hlatest, hfirst, hclear⟩

/-- A call that loads a definition gives its notes. -/
theorem notesAt_of_loadsAt {calls : List (Call K Note)} {id : String} {j i : Nat} (h : LoadsAt calls id j i)
    {m : RuleModule K Note} {notes : List Note} (hj : calls[j]? = some (.bundle id m notes)) : notesAt calls i = notes := by
  obtain ⟨c, hlast⟩ := h.latest
  obtain ⟨b, hb, hcomes, rfl⟩ := bundledRule?_of_last hlast
  have hcall := hlast.call
  rw [List.getElem?_take_of_lt h.lt, hj] at hcall
  cases hcall
  have huser : (after (calls.take i)).user.contains id = false := no_user_iff.2 h.unshadowed
  have hload : (after (calls.take i)).load id = ((after (calls.take i)).marked id, b.notes) := by
    rcases load_cases (after (calls.take i)) id with ⟨-, hidle⟩ | ⟨b', -, hb', -, hload⟩
    · -- the rule would have been loaded by a call before this one
      rcases hidle with hsome | hloaded
      · rw [huser] at hsome
        cases hsome
      · obtain ⟨i', hi'⟩ := hcomes.loaded.1 (hloaded b hb)
        have hlt := hi'.lt_length
        rw [List.length_take] at hlt
        have := h.unique hi'.of_take
        omega
    · rw [hb] at hb'
      cases hb'
      exact hload
  simp only [notesAt, h.asks, get, hload]

/-- A call that loads nothing gives no notes. -/
theorem notesAt_of_not {calls : List (Call K Note)} {i : Nat} (h : ∀ id j, ¬LoadsAt calls id j i) : notesAt calls i = [] := by
  unfold notesAt
  split
  · rename_i id hasks
    rcases load_cases (after (calls.take i)) id with ⟨hload, -⟩ | ⟨b, huser, hb, hloaded, -⟩
    · rw [get, hload]
    · obtain ⟨j, hcomes⟩ := comes_after hb
      have hclear := no_user_iff.1 huser
      refine absurd ⟨hasks, ⟨_, hcomes.latest⟩, ?_, hclear⟩ (h id j)
      intro c hc
      by_contra hask
      have hbefore := exists_loadsAt hcomes.latest ⟨c, hc, by simpa using hask⟩ hclear
      rw [hcomes.loaded.2 hbefore] at hloaded
      cases hloaded
  · rfl

/-- What is asked for is the latest user rule, and else the latest bundled one. -/
theorem get_after {calls : List (Call K Note)} {id : String} {m : RuleModule K Note} :
    ((after calls).get id).1 = some m ↔
      (∃ j, Last calls (Call.defines id) j (.define m)) ∨
      (∀ c ∈ calls, c.defines id = false) ∧ ∃ j notes, Last calls (Call.bundles id) j (.bundle id m notes) := by
  rw [← user_after, ← no_user_iff, get, find?, Dict.contains]
  cases huser : (after calls).user.find? id with
  | some m' => simp
  | none =>
    simp only [Option.isSome_none, Option.map_eq_some_iff, reduceCtorEq, true_and, false_or]
    constructor
    · rintro ⟨b, hb, rfl⟩
      obtain ⟨j, hcomes⟩ := comes_after hb
      exact ⟨j, b.notes, hcomes.latest⟩
    · rintro ⟨j, notes, hlast⟩
      obtain ⟨b, hb, -, heq⟩ := bundledRule?_of_last hlast
      cases heq
      exact ⟨b, hb, rfl⟩

/-- A rule is loaded if there is a user rule of the id or its latest bundled definition was loaded. -/
theorem isLoaded_after {calls : List (Call K Note)} {id : String} : (after calls).isLoaded id ↔
    (∃ c ∈ calls, c.defines id) ∨ ∃ j c i, Last calls (Call.bundles id) j c ∧ LoadsAt calls id j i := by
  have huser : (after calls).user.contains id ↔ ∃ c ∈ calls, c.defines id := by
    rw [← not_iff_not, Bool.not_eq_true, no_user_iff]
    simp
  have hbundled : ((after calls).bundled.any fun b => b.id == id && b.loaded) ↔
      ∃ b, (after calls).bundledRule? id = some b ∧ b.loaded := by
    rw [List.any_eq_true]
    constructor
    · rintro ⟨b, hmem, hb⟩
      obtain ⟨hid, hloaded⟩ : b.id = id ∧ b.loaded := by simpa using hb
      have hsome : ((after calls).bundledRule? id).isSome := mem_bundled_iff.1 (List.mem_map.2 ⟨b, hmem, hid⟩)
      obtain ⟨found, hfound⟩ := Option.isSome_iff_exists.1 hsome
      have heq : found = b := List.inj_on_of_nodup_map (nodup_bundled calls) (List.mem_of_find?_eq_some hfound) hmem
        ((id_of_bundledRule? hfound).trans hid.symm)
      exact ⟨b, heq ▸ hfound, hloaded⟩
    · rintro ⟨b, hb, hloaded⟩
      exact ⟨b, List.mem_of_find?_eq_some hb, by simp [id_of_bundledRule? hb, hloaded]⟩
  rw [isLoaded, Bool.or_eq_true, huser, hbundled]
  refine or_congr_right ⟨?_, ?_⟩
  · rintro ⟨b, hb, hloaded⟩
    obtain ⟨j, hcomes⟩ := comes_after hb
    obtain ⟨i, hi⟩ := hcomes.loaded.1 hloaded
    exact ⟨j, _, i, hcomes.latest, hi⟩
  · rintro ⟨j, c, i, hlast, hi⟩
    obtain ⟨b, hb, hcomes, -⟩ := bundledRule?_of_last hlast
    exact ⟨b, hb, hcomes.loaded.2 ⟨i, hi⟩⟩

/-- A registry is told by its history. A rule is contained, found and listed alike. Every id is listed once: the bundled ones
in the order of their latest definitions, then the others in the order of their first. Found is the latest user rule of an id,
wherever bundled ones were defined, and else the latest bundled one. The notes of loading a bundled rule come at the first call
that asks for it while no user rule is in front, and no other call gives any; so each definition is loaded at most once. An id
is loaded if it has a user rule or its latest bundled definition was loaded. The map of the user rules and the order of their
names agree. -/
theorem told_by_history (calls : List (Call K Note)) :
    (∀ id, ((after calls).contains id ↔ id ∈ (after calls).ids) ∧ (((after calls).get id).1.isSome ↔ id ∈ (after calls).ids)) ∧
    (after calls).ids.Nodup ∧
    (after calls).ids = (calls.filterMap Call.bundled?).dedup ++
      (calls.filterMap Call.defined?).eraseDups.filter (· ∉ calls.filterMap Call.bundled?) ∧
    (∀ id m, ((after calls).get id).1 = some m ↔
      (∃ j, Last calls (Call.defines id) j (.define m)) ∨
      (∀ c ∈ calls, c.defines id = false) ∧ ∃ j notes, Last calls (Call.bundles id) j (.bundle id m notes)) ∧
    (∀ id j i, LoadsAt calls id j i → ∀ m notes, calls[j]? = some (.bundle id m notes) → notesAt calls i = notes) ∧
    (∀ i, (∀ id j, ¬LoadsAt calls id j i) → notesAt calls i = []) ∧
    (∀ id j i i', LoadsAt calls id j i → LoadsAt calls id j i' → i = i') ∧
    (∀ id, (after calls).isLoaded id ↔
      (∃ c ∈ calls, c.defines id) ∨ ∃ j c i, Last calls (Call.bundles id) j c ∧ LoadsAt calls id j i) ∧
    (after calls).order = (after calls).user.keys := by
  refine ⟨?_, nodup_ids calls, ids_after calls, ?_, ?_, ?_, ?_, ?_, order_after calls⟩
  · intro id
    exact ⟨contains_iff_mem_ids, isSome_get_iff.trans contains_iff_mem_ids⟩
  · intro id m
    exact get_after
  · intro id j i h m notes hj
    exact notesAt_of_loadsAt h hj
  · intro i h
    exact notesAt_of_not h
  · intro id j i i' h h'
    exact h.unique h'
  · intro id
    exact isLoaded_after

/-- A rule without visitors. -/
def bare (name : String) (dependencies : List String) : RuleModule PlainKind Nat where
  name := name
  dependencies := dependencies
  initial := ⟨.unit, ()⟩

/-- A bundled rule is asked for twice, defined anew, asked for again, and covered by a user rule. -/
def recalled : List (Call PlainKind Nat) :=
  [.define (bare "extra" []), .bundle "lazy" (bare "lazy" []) [1], .get "lazy", .get "lazy", .bundle "other" (bare "o" []) [2],
    .bundle "lazy" (bare "lazy" ["other"]) [3], .get "lazy", .define (bare "lazy" ["extra"]), .get "lazy"]

/-- Both definitions are loaded, each by the first call that asks for it. -/
theorem told_by_history_recalled :
    LoadsAt recalled "lazy" 1 2 ∧ notesAt recalled 2 = [1] ∧ LoadsAt recalled "lazy" 5 6 ∧ notesAt recalled 6 = [3] ∧
    (after recalled).ids = ["other", "lazy", "extra"] ∧
    (after recalled).isLoaded "lazy" ∧ ¬(after recalled).isLoaded "other" := by
  obtain ⟨-, -, hids, -, hnotes, -, -, hloaded, -⟩ := told_by_history recalled
  have hfirst : LoadsAt recalled "lazy" 1 2 := ⟨rfl, ⟨_, rfl, rfl, by decide⟩, by decide, by decide⟩
  have hsecond : LoadsAt recalled "lazy" 5 6 := ⟨rfl, ⟨_, rfl, rfl, by decide⟩, by decide, by decide⟩
  refine ⟨hfirst, hnotes _ _ _ hfirst _ _ rfl, hsecond, hnotes _ _ _ hsecond _ _ rfl, hids.trans (by decide), ?_, by decide⟩
  exact (hloaded "lazy").2 (Or.inl ⟨.define (bare "lazy" ["extra"]), by simp [recalled], by decide⟩)

end Registry

end RuleWalk
