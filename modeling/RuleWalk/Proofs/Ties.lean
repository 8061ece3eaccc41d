import RuleWalk.Proofs.Order

/-!
# Ties of the delivery order

Dependencies leave most pairs of rules open, and the listing decides about them. The walk takes the listed rules from the last
to the first, and what it finishes from one of them is exactly what rests on it and on none listed later. So the order is made
of blocks, one for each rule and in listing order: a rule stands in the block of its anchor, the last listed of the rules it
rests on. A listing in which every rule comes after its dependencies makes every rule its own anchor and is its own order.
-/

namespace RuleWalk.Graph

/-- The first mention of a rule comes in front of the first mention of another that is listed. -/
def Before (ids : List String) (rule other : String) : Prop :=
  other ∈ ids ∧ ids.idxOf rule < ids.idxOf other

/-- The last listed rule among a rule itself and all that it depends on, at once or through others. -/
structure IsAnchor (g : Graph) (rule anchor : String) : Prop where
  listed : anchor ∈ g.ids
  rests : Relation.ReflTransGen g.Declares rule anchor
  last : ∀ id, Relation.ReflTransGen g.Declares rule id → id = anchor ∨ Before g.ids id anchor

/-- Every rule is listed after each of its dependencies. -/
def Sorted (g : Graph) : Prop :=
  ∀ rule dependency, g.Declares rule dependency → Before g.ids dependency rule

/-- The rules with their dependencies, listed in another order. -/
def relist (g : Graph) (ids : List String) : Graph :=
  ids.map fun id => (id, (g.lookup id).getD [])

/-! ## Places in a listing -/

theorem Before.mem_left {ids : List String} {rule other : String} (h : Before ids rule other) : rule ∈ ids := by
  have hlt : ids.idxOf other < ids.length := List.idxOf_lt_length_iff.2 h.1
  exact List.idxOf_lt_length_iff.1 (Nat.lt_trans h.2 hlt)

theorem Before.trans {ids : List String} {a b c : String} (h : Before ids a b) (h' : Before ids b c) : Before ids a c :=
  ⟨h'.1, Nat.lt_trans h.2 h'.2⟩

theorem not_before_self (ids : List String) (rule : String) : ¬Before ids rule rule :=
  fun h => Nat.lt_irrefl _ h.2

theorem before_append {front back : List String} {rule other : String} (hrule : rule ∈ front) (hother : other ∈ back)
    (hnew : other ∉ front) : Before (front ++ back) rule other := by
  refine ⟨List.mem_append_right _ hother, ?_⟩
  rw [List.idxOf_append_of_mem hrule, List.idxOf_append_of_notMem hnew]
  have hlt : front.idxOf rule < front.length := List.idxOf_lt_length_iff.2 hrule
  omega

/-- A listing can be cut behind a rule: the part after the cut holds the rules that are listed later. -/
theorem exists_cut {ids : List String} (hnodup : ids.Nodup) {rule : String} (hrule : rule ∈ ids) :
    ∃ front back, ids = front ++ back ∧ ∀ id, id ∈ back ↔ Before ids rule id := by
  obtain ⟨before, back, rfl⟩ := List.append_of_mem hrule
  refine ⟨before ++ [rule], back, by simp, fun id => ⟨fun hid => ?_, fun hid => ?_⟩⟩
  · rw [List.append_cons] at hnodup ⊢
    exact before_append (by simp) hid fun hfront => (List.nodup_append.1 hnodup).2.2 id hfront id hid rfl
  · have hnew : rule ∉ before := fun hmem => (List.nodup_append.1 hnodup).2.2 rule hmem rule List.mem_cons_self rfl
    obtain ⟨hmem, hlt⟩ := hid
    rw [List.idxOf_append_of_notMem hnew, List.idxOf_cons_self] at hlt
    rcases List.mem_append.1 hmem with hmem | hmem
    · rw [List.idxOf_append_of_mem hmem] at hlt
      have hle : before.idxOf id < before.length := List.idxOf_lt_length_iff.2 hmem
      omega
    · rcases List.mem_cons.1 hmem with rfl | hmem
      · rw [List.idxOf_append_of_notMem hnew, List.idxOf_cons_self] at hlt
        omega
      · exact hmem

/-- A list without repetitions is in the order of its places. -/
theorem pairwise_before {ids : List String} (hnodup : ids.Nodup) : ids.Pairwise (Before ids) := by
  rw [List.pairwise_iff_getElem]
  intro i j hi hj hij
  refine ⟨List.getElem_mem hj, ?_⟩
  rwa [hnodup.idxOf_getElem, hnodup.idxOf_getElem]

/-! ## What the walk adds -/

/-- The walk from a rule puts rules in front that rest on it, and leaves what was finished before as it is. -/
theorem visit_adds (g : Graph) (depth : Nat) : ∀ {path finished finished' : List String} {id : String},
    g.visit depth path finished id = .ok finished' →
    ∃ added, finished' = added ++ finished ∧ ∀ rule ∈ added, Relation.ReflTransGen g.Declares rule id := by
  induction depth with
  | zero =>
    intro path finished finished' id h
    cases h
    exact ⟨[], rfl, nofun⟩
  | succ depth ih =>
    intro path finished finished' id h
    rw [visit] at h
    split at h
    · cases h
      exact ⟨[], rfl, nofun⟩
    · split at h
      · cases h
      · split at h
        · rename_i walked hwalk
          cases h
          have hbelow : ∃ added, walked = added ++ finished ∧
              ∀ rule ∈ added, Relation.ReflTransGen g.Declares rule id := by
            refine foldlM_keeps (fun s => ∃ added, s = added ++ finished ∧
              ∀ rule ∈ added, Relation.ReflTransGen g.Declares rule id) ?_ ⟨[], rfl, nofun⟩ hwalk
            rintro dependent hdependent _ s' ⟨added, rfl, hadded⟩ hstep
            obtain ⟨more, rfl, hmore⟩ := ih hstep
            refine ⟨more ++ added, (List.append_assoc ..).symm, fun rule hrule => ?_⟩
            rcases List.mem_append.1 hrule with hrule | hrule
            · exact (hmore rule hrule).tail (mem_dependents.1 (List.mem_reverse.1 hdependent))
            · exact hadded rule hrule
          obtain ⟨added, rfl, hadded⟩ := hbelow
          refine ⟨id :: added, rfl, fun rule hrule => ?_⟩
          rcases List.mem_cons.1 hrule with rfl | hrule
          · exact .refl
          · exact hadded rule hrule
        · cases h

/-- The same for a walk from several rules. -/
theorem foldlM_visit_adds {g : Graph} {depth : Nat} {path finished finished' rules : List String}
    (h : rules.foldlM (g.visit depth path) finished = .ok finished') :
    ∃ added, finished' = added ++ finished ∧ ∀ rule ∈ added, ∃ id ∈ rules, Relation.ReflTransGen g.Declares rule id := by
  refine foldlM_keeps (fun s => ∃ added, s = added ++ finished ∧
    ∀ rule ∈ added, ∃ id ∈ rules, Relation.ReflTransGen g.Declares rule id) ?_ ⟨[], rfl, nofun⟩ h
  rintro id hid _ s' ⟨added, rfl, hadded⟩ hstep
  obtain ⟨more, rfl, hmore⟩ := g.visit_adds depth hstep
  refine ⟨more ++ added, (List.append_assoc ..).symm, fun rule hrule => ?_⟩
  rcases List.mem_append.1 hrule with hrule | hrule
  · exact ⟨id, hid, hmore rule hrule⟩
  · exact hadded rule hrule

/-- In a settled list stands all that rests on a rule of it. -/
theorem Settled.mem_of_rests {g : Graph} {ids : List String} (h : g.Settled ids) {rule id : String} (hid : id ∈ ids)
    (hrests : Relation.ReflTransGen g.Declares rule id) : rule ∈ ids := by
  rcases Relation.reflTransGen_iff_eq_or_transGen.1 hrests with heq | hdep
  · exact heq ▸ hid
  · exact (h.later_transGen hid hdep).1

theorem walk_of_resolve {g : Graph} {order : DeliveryOrder} (h : g.resolve = .ok order) :
    g.ids.reverse.foldlM (g.visit (g.length + 1) []) [] = .ok order.ids := by
  unfold resolve at h
  split at h
  · cases h
  · split at h
    · rename_i finished hwalk
      cases h
      exact hwalk
    · cases h

/-- However the listing is cut, the order ends with the rules that rest on one behind the cut, and with no others. -/
theorem resolve_cut {g : Graph} {order : DeliveryOrder} (h : g.resolve = .ok order) {front back : List String}
    (hids : g.ids = front ++ back) : ∃ first last, order.ids = first ++ last ∧
      ∀ rule, rule ∈ last ↔ ∃ id ∈ back, Relation.ReflTransGen g.Declares rule id := by
  have hwalk := walk_of_resolve h
  rw [hids, List.reverse_append] at hwalk
  obtain ⟨last, hback, hfront⟩ := foldlM_append_eq_ok hwalk
  obtain ⟨first, heq, -⟩ := foldlM_visit_adds hfront
  obtain ⟨added, hadded, hrests⟩ := foldlM_visit_adds hback
  rw [List.append_nil] at hadded
  rw [← hadded] at hrests
  refine ⟨first, last, heq, fun rule => ⟨fun hrule => ?_, ?_⟩⟩
  · obtain ⟨id, hid, hrule⟩ := hrests rule hrule
    exact ⟨id, List.mem_reverse.1 hid, hrule⟩
  · rintro ⟨id, hid, hrule⟩
    have houtcome : g.Outcome [] [] back.reverse (back.reverse.foldlM (g.visit (g.length + 1) []) []) := by
      refine foldlM_outcome back.reverse (fun x hx finished hw => ?_) [] ⟨trivial, nofun, nofun⟩
      have hlisted : x ∈ g.ids := hids ▸ List.mem_append_right _ (List.mem_reverse.1 hx)
      exact g.visit_outcome (g.length + 1) [] finished x ⟨List.nodup_nil, nofun, .nil⟩ hlisted (.singleton x) (by simp) hw
    rw [hback] at houtcome
    obtain ⟨hwalked, -, hall⟩ := houtcome
    exact hwalked.settled.mem_of_rests (hall (List.mem_reverse.2 hid)) hrule

/-! ## Anchors -/

theorem mem_ids_of_rests {g : Graph} {rule id : String} (hid : id ∈ g.ids)
    (h : Relation.ReflTransGen g.Declares rule id) : rule ∈ g.ids := by
  rcases h.cases_head with rfl | ⟨next, hdecl, -⟩
  · exact hid
  · exact hdecl.mem_ids

theorem Complete.mem_of_rests {g : Graph} (h : g.Complete) {rule id : String} (hrule : rule ∈ g.ids)
    (hrests : Relation.ReflTransGen g.Declares rule id) : id ∈ g.ids := by
  rcases hrests.cases_tail with rfl | ⟨last, -, hdecl⟩
  · exact hrule
  · exact h last id hdecl

theorem IsAnchor.unique {g : Graph} {rule a b : String} (ha : g.IsAnchor rule a) (hb : g.IsAnchor rule b) : a = b := by
  rcases hb.last a ha.rests with heq | hab
  · exact heq
  · rcases ha.last b hb.rests with heq | hba
    · exact heq.symm
    · exact absurd (hab.trans hba) (not_before_self _ _)

/-- Every rule of a complete graph has an anchor. -/
theorem exists_isAnchor {g : Graph} (hcomplete : g.Complete) {rule : String} (hrule : rule ∈ g.ids) :
    ∃ anchor, g.IsAnchor rule anchor := by
  classical
  -- of the listed rules that it rests on, itself among them, one has the last place
  obtain ⟨anchor, hanchor, hlast⟩ := Finset.exists_max_image
    (g.ids.toFinset.filter fun id => Relation.ReflTransGen g.Declares rule id) g.ids.idxOf
    ⟨rule, by simp [hrule, Relation.ReflTransGen.refl]⟩
  simp only [Finset.mem_filter, List.mem_toFinset] at hanchor hlast
  refine ⟨anchor, hanchor.1, hanchor.2, fun id hid => ?_⟩
  have hmem := hcomplete.mem_of_rests hrule hid
  rcases Nat.lt_or_eq_of_le (hlast id ⟨hmem, hid⟩) with hlt | heq
  · exact Or.inr ⟨hanchor.1, hlt⟩
  · exact Or.inl ((List.idxOf_inj hmem).1 heq)

/-- Rules come in the order of their anchors. -/
theorem before_of_anchors {g : Graph} {order : DeliveryOrder} (hnodup : g.ids.Nodup) (h : g.resolve = .ok order)
    {u w a b : String} (ha : g.IsAnchor u a) (hb : g.IsAnchor w b) (hab : Before g.ids a b) : Before order.ids u w := by
  obtain ⟨front, back, hids, hback⟩ := exists_cut hnodup ha.listed
  obtain ⟨first, last, horder, hlast⟩ := resolve_cut h hids
  obtain ⟨-, hisOrder⟩ := settled_of_resolve h
  have hw : w ∈ last := (hlast w).2 ⟨b, (hback b).2 hab, hb.rests⟩
  have hu : u ∉ last := by
    intro hmem
    obtain ⟨id, hid, hrests⟩ := (hlast u).1 hmem
    have hlater := (hback id).1 hid
    rcases ha.last id hrests with rfl | hearlier
    · exact not_before_self _ _ hlater
    · exact not_before_self _ _ (hearlier.trans hlater)
  have humem : u ∈ order.ids := (hisOrder.listed u).2 (mem_ids_of_rests ha.listed ha.rests)
  rw [horder] at humem ⊢
  have hsplit := List.nodup_append.1 (horder ▸ hisOrder.nodup)
  exact before_append ((List.mem_append.1 humem).resolve_right hu) hw fun hfirst => hsplit.2.2 w hfirst w hw rfl

/-! ## Sorted listings -/

theorem Sorted.before_of_transGen {g : Graph} (h : g.Sorted) {rule id : String}
    (hdep : Relation.TransGen g.Declares rule id) : Before g.ids id rule := by
  induction hdep with
  | single hdecl => exact h _ _ hdecl
  | tail _ hdecl ih => exact (h _ _ hdecl).trans ih

/-- In a sorted listing every rule is its own anchor. -/
theorem Sorted.isAnchor_self {g : Graph} (h : g.Sorted) {rule : String} (hrule : rule ∈ g.ids) : g.IsAnchor rule rule := by
  refine ⟨hrule, .refl, fun id hid => ?_⟩
  rcases Relation.reflTransGen_iff_eq_or_transGen.1 hid with heq | hdep
  · exact Or.inl heq
  · exact Or.inr (h.before_of_transGen hdep)

/-- A sorted listing has a delivery order, and it is the listing. -/
theorem Sorted.resolve {g : Graph} (h : g.Sorted) (hnodup : g.ids.Nodup) : g.resolve = .ok ⟨g.ids⟩ := by
  have hcomplete : g.Complete := fun rule dependency hdecl => (h rule dependency hdecl).mem_left
  have hacyclic : ¬g.Cyclic := fun ⟨id, hdep⟩ => not_before_self _ _ (h.before_of_transGen hdep)
  obtain ⟨order, hok, horder⟩ := resolve_of_not_cyclic hcomplete hacyclic
  have hperm : g.ids.Perm order.ids :=
    (List.perm_ext_iff_of_nodup hnodup horder.nodup).2 fun id => (horder.listed id).symm
  -- both lists are in the order of places in the second
  have hlisting : g.ids.Pairwise (Before order.ids) := by
    refine (pairwise_before hnodup).imp_of_mem fun hu hw hbefore => ?_
    exact before_of_anchors hnodup hok (h.isAnchor_self hu) (h.isAnchor_self hw) hbefore
  have heq : g.ids = order.ids := by
    refine hperm.eq_of_pairwise (fun a b _ _ hab hba => ?_) hlisting (pairwise_before horder.nodup)
    exact absurd (hab.trans hba) (not_before_self _ _)
  rw [hok, heq]

/-! ## Listing a graph in its own order -/

@[simp] theorem ids_relist (g : Graph) (ids : List String) : (g.relist ids).ids = ids := by
  simp [relist, Graph.ids, Function.comp_def]

theorem relist_self {g : Graph} (hnodup : g.ids.Nodup) : g.relist g.ids = g := by
  have hlookup : ∀ entry ∈ g, (entry.1, (g.lookup entry.1).getD []) = entry := by
    rintro ⟨rule, dependencies⟩ hentry
    obtain ⟨before, after, rfl⟩ := List.append_of_mem hentry
    rw [Graph.ids, List.map_append, List.nodup_append] at hnodup
    have hfound : (before ++ (rule, dependencies) :: after).lookup rule = some dependencies := by
      refine List.lookup_eq_some_iff.2 ⟨before, after, rfl, fun entry hmem => ?_⟩
      have hne := hnodup.2.2 entry.1 (List.mem_map_of_mem hmem) rule (by simp)
      simpa using Ne.symm hne
    rw [hfound]
    rfl
  calc g.relist g.ids = g.map fun entry => (entry.1, (g.lookup entry.1).getD []) := by simp [relist, Graph.ids]
    _ = g := by
      nth_rewrite 3 [← List.map_id g]
      exact List.map_congr_left hlookup

/-- A graph listed in another order of its rules has the same entries. -/
theorem relist_perm {g : Graph} (hnodup : g.ids.Nodup) {ids : List String} (h : ids.Perm g.ids) : (g.relist ids).Perm g := by
  have hmap : (g.relist ids).Perm (g.relist g.ids) := h.map _
  rwa [relist_self hnodup] at hmap

theorem declares_of_perm {g g' : Graph} (h : g.Perm g') {rule dependency : String} :
    g.Declares rule dependency ↔ g'.Declares rule dependency :=
  exists_congr fun _ => and_congr_left fun _ => h.mem_iff

/-- Listed in its delivery order, a graph is sorted. -/
theorem sorted_relist {g : Graph} {order : DeliveryOrder} (hnodup : g.ids.Nodup) (h : g.resolve = .ok order) :
    (g.relist order.ids).Perm g ∧ (g.relist order.ids).Sorted := by
  obtain ⟨hsettled, horder⟩ := settled_of_resolve h
  have hperm : (g.relist order.ids).Perm g :=
    relist_perm hnodup ((List.perm_ext_iff_of_nodup horder.nodup hnodup).2 horder.listed)
  refine ⟨hperm, fun rule dependency hdecl => ?_⟩
  have hdecl' := (declares_of_perm hperm).1 hdecl
  have hmem : dependency ∈ order.ids := (horder.listed _).2 (complete_of_resolve h rule dependency hdecl')
  rw [ids_relist]
  exact hsettled.later hmem hdecl'

/-- How ties are broken. Every rule of a graph that has a delivery order has one anchor, the last listed of the rules it rests
on, and rules come in the order in which their anchors are listed. So a listing in which every rule comes after its
dependencies is its own delivery order, and a graph listed in its delivery order keeps it. -/
theorem resolve_ties (g : Graph) (hnodup : g.ids.Nodup) :
    (∀ order, g.resolve = .ok order →
      (∀ u ∈ g.ids, ∃! a, g.IsAnchor u a) ∧
      (∀ u w a b, g.IsAnchor u a → g.IsAnchor w b → Before g.ids a b → Before order.ids u w) ∧
      (g.relist order.ids).Perm g ∧ (g.relist order.ids).ids = order.ids ∧ (g.relist order.ids).resolve = .ok order) ∧
    (g.Sorted → g.resolve = .ok ⟨g.ids⟩) := by
  refine ⟨?_, fun h => h.resolve hnodup⟩
  intro order h
  refine ⟨?_, fun u w a b => before_of_anchors hnodup h, ?_⟩
  · intro u hu
    obtain ⟨a, ha⟩ := exists_isAnchor (complete_of_resolve h) hu
    exact ⟨a, ha, fun b hb => hb.unique ha⟩
  · obtain ⟨hperm, hsorted⟩ := sorted_relist hnodup h
    have hdistinct : (g.relist order.ids).ids.Nodup := by
      rw [ids_relist]
      exact (settled_of_resolve h).2.nodup
    have hagain := hsorted.resolve hdistinct
    rw [ids_relist] at hagain
    exact ⟨hperm, ids_relist g order.ids, hagain⟩

/-- A rule that is listed first comes last: it rests on the rule that is listed last, and a rule between them is free. -/
theorem resolve_ties_late : ∃ g : Graph, g.ids = ["top", "free", "base"] ∧ g.resolve = .ok ⟨["free", "base", "top"]⟩ ∧
    g.IsAnchor "free" "free" ∧ g.IsAnchor "top" "base" ∧ Before ["free", "base", "top"] "free" "top" := by
  let g : Graph := [("top", ["base"]), ("free", []), ("base", [])]
  have hdeclares : ∀ {rule dependency}, g.Declares rule dependency → rule = "top" ∧ dependency = "base" := by
    rintro rule dependency ⟨dependencies, hmem, hd⟩
    simp only [g, List.mem_cons, Prod.mk.injEq, List.not_mem_nil, or_false] at hmem
    rcases hmem with ⟨rfl, rfl⟩ | ⟨rfl, rfl⟩ | ⟨rfl, rfl⟩ <;> simp_all
  have hfree : g.IsAnchor "free" "free" := by
    refine ⟨by decide, .refl, fun id hid => Or.inl ?_⟩
    rcases hid.cases_head with heq | ⟨next, hdecl, -⟩
    · exact heq.symm
    · exact absurd (hdeclares hdecl).1 (by decide)
  have htop : g.IsAnchor "top" "base" := by
    refine ⟨by decide, .single ⟨["base"], by simp [g], by simp⟩, fun id hid => ?_⟩
    rcases hid.cases_tail with heq | ⟨last, -, hdecl⟩
    · exact Or.inr (heq ▸ ⟨by decide, by decide⟩)
    · exact Or.inl (hdeclares hdecl).2
  have hresolve : g.resolve = .ok ⟨["free", "base", "top"]⟩ := by decide
  have hties := ((resolve_ties g (by decide)).1 _ hresolve).2.1
  exact ⟨g, rfl, hresolve, hfree, htop, hties _ _ _ _ hfree htop ⟨by decide, by decide⟩⟩

end RuleWalk.Graph
