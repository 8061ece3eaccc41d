import RuleWalk.Order
import RuleWalk.Proofs.Lists

/-!
# The delivery order is right

What a graph says about its rules is a relation: a rule declares a dependency. The walk along the dependents keeps a list of
finished rules in which every rule stands in front of all that depend on it (`Settled`), and a path that is a chain of the
relation. So the walk either puts every listed rule into such a list or meets a rule on the path to itself, which is a cycle.
-/

namespace RuleWalk.Graph

/-- A listed rule names a dependency; of a rule that is listed more than once, any listing counts. -/
def Declares (g : Graph) (rule dependency : String) : Prop :=
  ∃ dependencies, (rule, dependencies) ∈ g ∧ dependency ∈ dependencies

/-- Every dependency is listed. -/
def Complete (g : Graph) : Prop :=
  ∀ rule dependency, g.Declares rule dependency → dependency ∈ g.ids

/-- Some rule depends on itself, at once or through others. -/
def Cyclic (g : Graph) : Prop :=
  ∃ id, Relation.TransGen g.Declares id id

/-- A path that ends where it begins, repeats nothing else, and leads from each rule to one that depends on it. -/
structure IsCycle (g : Graph) (path : List String) : Prop where
  length : 2 ≤ path.length
  closes : path.head? = path.getLast?
  simple : path.dropLast.Nodup
  chain : path.IsChain fun dependency rule => g.Declares rule dependency

/-- In listing order, the first dependency that is not listed, with the rule that names it. -/
def FirstMissing (g : Graph) (rule dependency : String) : Prop :=
  ∃ before earlier later after, g = before ++ (rule, earlier ++ dependency :: later) :: after ∧ dependency ∉ g.ids ∧
    (∀ d ∈ earlier, d ∈ g.ids) ∧ ∀ entry ∈ before, ∀ d ∈ entry.2, d ∈ g.ids

/-- The order holds each listed rule once, every rule after what it depends on, and ranks are places in it. -/
structure IsOrder (g : Graph) (order : DeliveryOrder) : Prop where
  nodup : order.ids.Nodup
  listed : ∀ id, id ∈ order.ids ↔ id ∈ g.ids
  later : ∀ rule dependency, g.Declares rule dependency →
    ∃ i j : Nat, order.ids[i]? = some dependency ∧ order.ids[j]? = some rule ∧ i < j
  rank : ∀ id n, order.rank? id = some n ↔ order.ids[n]? = some id

/-! ## Dependents and missing dependencies -/

theorem mem_dependents {g : Graph} {rule id : String} : rule ∈ g.dependents id ↔ g.Declares rule id := by
  simp only [dependents, Declares, List.mem_flatMap, List.mem_map, List.mem_filter, beq_iff_eq, Prod.exists]
  constructor
  · rintro ⟨r, deps, hmem, d, ⟨hd, rfl⟩, rfl⟩
    exact ⟨deps, hmem, hd⟩
  · rintro ⟨deps, hmem, hd⟩
    exact ⟨rule, deps, hmem, id, ⟨hd, rfl⟩, rfl⟩

/-- A rule that declares something is listed. -/
theorem Declares.mem_ids {g : Graph} {rule dependency : String} (h : g.Declares rule dependency) : rule ∈ g.ids := by
  obtain ⟨deps, hmem, -⟩ := h
  exact List.mem_map.2 ⟨_, hmem, rfl⟩

/-- Nothing is missing exactly when every dependency is listed. -/
theorem missing?_eq_none_iff {g : Graph} : g.missing? = none ↔ g.Complete := by
  simp only [missing?, List.findSome?_eq_none_iff, Prod.forall, Option.map_eq_none_iff, List.find?_eq_none,
    Bool.not_eq_true', Bool.not_eq_false, List.contains_iff_mem, Complete, Declares]
  constructor
  · rintro h rule d ⟨deps, hmem, hd⟩
    exact h rule deps hmem d hd
  · intro h rule deps hmem d hd
    exact h rule d ⟨deps, hmem, hd⟩

/-- What is reported as missing is the first that is missing. -/
theorem firstMissing_of_missing? {g : Graph} {rule dependency : String} (h : g.missing? = some (rule, dependency)) :
    g.FirstMissing rule dependency := by
  obtain ⟨before, ⟨rule', deps⟩, after, hg, hfound, hbefore⟩ := List.findSome?_eq_some_iff.1 h
  obtain ⟨d, hfind, heq⟩ := Option.map_eq_some_iff.1 hfound
  obtain ⟨rfl, rfl⟩ := Prod.mk.inj heq
  obtain ⟨hd, earlier, later, rfl, hearlier⟩ := List.find?_eq_some_iff_append.1 hfind
  refine ⟨before, earlier, later, after, hg, by simpa using hd, fun x hx => by simpa using hearlier x hx, ?_⟩
  intro entry hentry x hx
  have hnone := hbefore entry hentry
  simp only [Option.map_eq_none_iff, List.find?_eq_none] at hnone
  simpa using hnone x hx

/-! ## The walk -/

/-- A list of finished rules without repetitions in which all that depends on a rule stands behind it. -/
def Settled (g : Graph) : List String → Prop
  | [] => True
  | id :: rest => id ∉ rest ∧ (∀ rule, g.Declares rule id → rule ∈ rest) ∧ Settled g rest

theorem Settled.nodup {g : Graph} {ids : List String} (h : g.Settled ids) : ids.Nodup := by
  induction ids with
  | nil => exact List.nodup_nil
  | cons id rest ih => exact List.nodup_cons.2 ⟨h.1, ih h.2.2⟩

/-- In a settled list a rule comes after each of its dependencies that is there. -/
theorem Settled.later {g : Graph} {ids : List String} (h : g.Settled ids) {rule dependency : String}
    (hd : dependency ∈ ids) (hdecl : g.Declares rule dependency) :
    rule ∈ ids ∧ ids.idxOf dependency < ids.idxOf rule := by
  induction ids with
  | nil => exact absurd hd List.not_mem_nil
  | cons id rest ih =>
    obtain ⟨hnew, hbehind, hrest⟩ := h
    have hrule : rule ∈ rest := by
      rcases List.mem_cons.1 hd with rfl | hd
      · exact hbehind rule hdecl
      · exact (ih hrest hd).1
    have hne : id ≠ rule := fun heq => hnew (heq ▸ hrule)
    refine ⟨List.mem_cons_of_mem _ hrule, ?_⟩
    rcases List.mem_cons.1 hd with rfl | hd
    · rw [List.idxOf_cons_self, List.idxOf_cons_ne _ hne]
      exact Nat.succ_pos _
    · have hne' : id ≠ dependency := fun heq => hnew (heq ▸ hd)
      rw [List.idxOf_cons_ne _ hne, List.idxOf_cons_ne _ hne']
      exact Nat.succ_lt_succ (ih hrest hd).2

/-- The same for a rule that depends on another through others. -/
theorem Settled.later_transGen {g : Graph} {ids : List String} (h : g.Settled ids) {rule dependency : String}
    (hd : dependency ∈ ids) (hdep : Relation.TransGen g.Declares rule dependency) :
    rule ∈ ids ∧ ids.idxOf dependency < ids.idxOf rule := by
  induction hdep with
  | single hdecl => exact h.later hd hdecl
  | tail _ hdecl ih =>
    obtain ⟨hmem, hlt⟩ := h.later hd hdecl
    obtain ⟨hmem', hlt'⟩ := ih hmem
    exact ⟨hmem', Nat.lt_trans hlt hlt'⟩

/-- What holds of the finished rules below a path: they are settled, listed and off the path. -/
structure Walked (g : Graph) (path finished : List String) : Prop where
  settled : g.Settled finished
  listed : ∀ id ∈ finished, id ∈ g.ids
  apart : ∀ id ∈ path, id ∉ finished

/-- A path of the walk, nearest first: each rule depends on the next, all are listed and none comes twice. -/
structure IsPath (g : Graph) (path : List String) : Prop where
  nodup : path.Nodup
  listed : ∀ id ∈ path, id ∈ g.ids
  chain : path.IsChain g.Declares

/-- What the walk from some rules gives: more finished rules, those among them, or a cycle. -/
def Outcome (g : Graph) (path finished rules : List String) : Except (List String) (List String) → Prop
  | .ok finished' => g.Walked path finished' ∧ finished ⊆ finished' ∧ rules ⊆ finished'
  | .error cycle => g.IsCycle cycle

/-- No path is longer than the listing. -/
theorem IsPath.length_le {g : Graph} {path : List String} (h : g.IsPath path) : path.length ≤ g.length := by
  have hsub : path.length ≤ g.ids.length := (h.nodup.subperm h.listed).length_le
  simpa [ids] using hsub

/-- A rule on the path to itself closes a cycle. -/
theorem isCycle_cycleTo {g : Graph} {path : List String} {id : String} (hpath : g.IsPath path) (hid : id ∈ path)
    (hchain : (id :: path).IsChain g.Declares) : g.IsCycle (cycleTo id path) := by
  obtain ⟨before, after, rfl, hbefore⟩ := List.eq_append_cons_of_mem hid
  have hto : cycleTo id (before ++ id :: after) = (id :: before.reverse) ++ [id] := by
    have htake : (before ++ id :: after).takeWhile (· != id) = before := by
      rw [List.takeWhile_append_of_pos (by rintro x hx; simp; rintro rfl; exact hbefore hx)]
      simp
    simp [cycleTo, htake]
  rw [hto]
  refine ⟨by simp, by rw [List.getLast?_concat]; rfl, ?_, ?_⟩
  · rw [List.dropLast_concat, List.nodup_cons, List.mem_reverse, List.reverse_perm before |>.nodup_iff]
    exact ⟨hbefore, hpath.nodup.sublist (List.sublist_append_left _ _)⟩
  · have hrev : (id :: before.reverse) ++ [id] = (id :: before ++ [id]).reverse := by simp
    have hsplit : id :: (before ++ id :: after) = (id :: before ++ [id]) ++ after := by simp
    rw [hrev, List.isChain_reverse]
    rw [hsplit] at hchain
    exact hchain.left_of_append

/-- A walk from one rule after the other keeps what each of them keeps, and stops at the first cycle. -/
theorem foldlM_outcome {g : Graph} {path : List String} {walk : List String → String → Except (List String) (List String)}
    (rules : List String) (hwalk : ∀ id ∈ rules, ∀ finished, g.Walked path finished →
      g.Outcome path finished [id] (walk finished id)) :
    ∀ finished, g.Walked path finished → g.Outcome path finished rules (rules.foldlM walk finished) := by
  induction rules with
  | nil => exact fun finished h => ⟨h, List.Subset.refl _, List.nil_subset _⟩
  | cons id rest ih =>
    intro finished h
    have hone := hwalk id List.mem_cons_self finished h
    cases hid : walk finished id with
    | error cycle =>
      rw [foldlM_cons_of_error rest hid]
      rw [hid] at hone
      exact hone
    | ok finished' =>
      rw [foldlM_cons_of_ok rest hid]
      rw [hid] at hone
      obtain ⟨hwalked, hsub, hmem⟩ := hone
      have hrest := ih (fun x hx => hwalk x (List.mem_cons_of_mem _ hx)) finished' hwalked
      cases hall : rest.foldlM walk finished' with
      | error cycle =>
        rw [hall] at hrest
        exact hrest
      | ok finished'' =>
        rw [hall] at hrest
        obtain ⟨hwalked', hsub', hmem'⟩ := hrest
        exact ⟨hwalked', List.Subset.trans hsub hsub', List.cons_subset.2 ⟨hsub' (hmem List.mem_cons_self), hmem'⟩⟩

/-- The walk from a rule below a path: it finishes the rule and all that depends on it, or finds a cycle. The depth that is
left and the length of the path together exceed the listing, so the depth is never used up. -/
theorem visit_outcome (g : Graph) (depth : Nat) : ∀ (path finished : List String) (id : String),
    g.IsPath path → id ∈ g.ids → (id :: path).IsChain g.Declares → g.length < path.length + depth →
    g.Walked path finished → g.Outcome path finished [id] (g.visit depth path finished id) := by
  induction depth with
  | zero =>
    intro path finished id hpath _ _ hdepth _
    have := hpath.length_le
    omega
  | succ depth ih =>
    intro path finished id hpath hid hchain hdepth hwalked
    rw [visit]
    split
    · rename_i hfin
      exact ⟨hwalked, List.Subset.refl _, by simpa using hfin⟩
    · rename_i hfin
      split
      · rename_i hon
        exact isCycle_cycleTo hpath (List.contains_iff_mem.1 hon) hchain
      · rename_i hoff
        have hpath' : g.IsPath (id :: path) := by
          refine ⟨List.nodup_cons.2 ⟨by simpa using hoff, hpath.nodup⟩, ?_, hchain⟩
          intro x hx
          rcases List.mem_cons.1 hx with rfl | hx
          · exact hid
          · exact hpath.listed x hx
        have hwalked' : g.Walked (id :: path) finished := by
          refine ⟨hwalked.settled, hwalked.listed, ?_⟩
          intro x hx
          rcases List.mem_cons.1 hx with rfl | hx
          · simpa using hfin
          · exact hwalked.apart x hx
        have hall : g.Outcome (id :: path) finished (g.dependents id).reverse
            ((g.dependents id).reverse.foldlM (g.visit depth (id :: path)) finished) := by
          refine foldlM_outcome _ (fun rule hrule finished hw => ?_) finished hwalked'
          have hdecl := mem_dependents.1 (List.mem_reverse.1 hrule)
          refine ih (id :: path) finished rule hpath' hdecl.mem_ids (hchain.cons_cons hdecl) ?_ hw
          simp only [List.length_cons]
          omega
        split
        · rename_i finished' hok
          rw [hok] at hall
          obtain ⟨hw, hsub, hdeps⟩ := hall
          refine ⟨⟨⟨hw.apart id List.mem_cons_self, ?_, hw.settled⟩, ?_, ?_⟩, ?_, ?_⟩
          · intro rule hrule
            exact hdeps (List.mem_reverse.2 (mem_dependents.2 hrule))
          · intro x hx
            rcases List.mem_cons.1 hx with rfl | hx
            · exact hid
            · exact hw.listed x hx
          · intro x hx hmem
            rcases List.mem_cons.1 hmem with rfl | hmem
            · exact hoff (by simpa using hx)
            · exact hw.apart x (List.mem_cons_of_mem _ hx) hmem
          · exact fun x hx => List.mem_cons_of_mem _ (hsub hx)
          · simp
        · rename_i cycle herr
          rw [herr] at hall
          exact hall

/-- The walk from all listed rules. -/
theorem walk_outcome (g : Graph) :
    g.Outcome [] [] g.ids.reverse (g.ids.reverse.foldlM (g.visit (g.length + 1) []) []) := by
  refine foldlM_outcome g.ids.reverse (fun id hid finished hw => ?_) [] ⟨trivial, nofun, nofun⟩
  exact g.visit_outcome (g.length + 1) [] finished id ⟨List.nodup_nil, nofun, .nil⟩ (List.mem_reverse.1 hid)
    (.singleton id) (by simp) hw

/-! ## The outcome -/

/-- The walk along a cycle leads from a rule back to it, so the graph is cyclic. -/
theorem IsCycle.cyclic {g : Graph} {path : List String} (h : g.IsCycle path) : g.Cyclic := by
  obtain ⟨hlen, hcloses, -, hchain⟩ := h
  match path, hlen, hcloses, hchain with
  | first :: second :: rest, _, hcloses, hchain =>
    have hlast : (second :: rest).getLast (List.cons_ne_nil _ _) = first := by
      rw [List.head?_cons, List.getLast?_cons_cons, List.getLast?_eq_some_getLast (List.cons_ne_nil _ _)] at hcloses
      exact (Option.some.inj hcloses).symm
    have hback := List.relationReflTransGen_of_exists_isChain_cons rest hchain.tail hlast
    exact ⟨first, Relation.transGen_swap.1 (Relation.TransGen.head' hchain.rel hback)⟩

/-- Where all listed rules can be settled, none depends on itself. -/
theorem Settled.not_cyclic {g : Graph} {ids : List String} (h : g.Settled ids) (hall : g.ids ⊆ ids) : ¬g.Cyclic := by
  rintro ⟨id, hdep⟩
  obtain ⟨rule, hdecl, -⟩ := Relation.TransGen.head'_iff.1 hdep
  exact Nat.lt_irrefl _ (h.later_transGen (hall hdecl.mem_ids) hdep).2

/-- The rank of a rule is its place in an order without repetitions. -/
theorem rank?_eq_some_iff {order : DeliveryOrder} (h : order.ids.Nodup) (id : String) (n : Nat) :
    order.rank? id = some n ↔ order.ids[n]? = some id := by
  rw [DeliveryOrder.rank?, List.idxOf?_eq_some_iff, List.getElem?_eq_some_iff]
  constructor
  · rintro ⟨hn, hid, -⟩
    exact ⟨hn, hid⟩
  · rintro ⟨hn, hid⟩
    refine ⟨hn, hid, fun j hj hjd => ?_⟩
    exact List.pairwise_iff_getElem.1 h j n (Nat.lt_trans hj hn) hn hj (hjd.trans hid.symm)

/-- The finished rules of a walk that found no cycle are an order. -/
theorem isOrder_of_settled {g : Graph} {finished : List String} (h : g.Settled finished)
    (hlisted : ∀ id ∈ finished, id ∈ g.ids) (hall : g.ids ⊆ finished) (hcomplete : g.Complete) :
    g.IsOrder ⟨finished⟩ := by
  refine ⟨h.nodup, fun id => ⟨hlisted id, fun hid => hall hid⟩, ?_, rank?_eq_some_iff h.nodup⟩
  intro rule dependency hdecl
  have hdep : dependency ∈ finished := hall (hcomplete rule dependency hdecl)
  obtain ⟨hrule, hlt⟩ := h.later hdep hdecl
  exact ⟨_, _, List.getElem?_idxOf hdep, List.getElem?_idxOf hrule, hlt⟩

/-- What the delivery order of a complete graph is: an order that settles it, or a cycle. -/
theorem resolve_complete {g : Graph} (hcomplete : g.Complete) :
    (∃ order, g.resolve = .ok order ∧ g.Settled order.ids ∧ g.IsOrder order) ∨
      ∃ path, g.resolve = .error (.cyclic path) ∧ g.IsCycle path := by
  have hwalk := g.walk_outcome
  rw [resolve, missing?_eq_none_iff.2 hcomplete]
  cases hrun : g.ids.reverse.foldlM (g.visit (g.length + 1) []) [] with
  | error path =>
    rw [hrun] at hwalk
    exact Or.inr ⟨path, rfl, hwalk⟩
  | ok finished =>
    rw [hrun] at hwalk
    obtain ⟨hw, -, hall⟩ := hwalk
    have hids : g.ids ⊆ finished := fun id hid => hall (List.mem_reverse.2 hid)
    exact Or.inl ⟨⟨finished⟩, rfl, hw.settled, isOrder_of_settled hw.settled hw.listed hids hcomplete⟩

/-- A graph with a delivery order names nothing that is missing. -/
theorem complete_of_resolve {g : Graph} {order : DeliveryOrder} (h : g.resolve = .ok order) : g.Complete := by
  rw [← missing?_eq_none_iff]
  unfold resolve at h
  split at h
  · cases h
  · assumption

/-- A delivery order settles its graph. -/
theorem settled_of_resolve {g : Graph} {order : DeliveryOrder} (h : g.resolve = .ok order) :
    g.Settled order.ids ∧ g.IsOrder order := by
  rcases resolve_complete (complete_of_resolve h) with ⟨order', hok, hsettled, horder⟩ | ⟨path, herr, -⟩
  · cases hok.symm.trans h
    exact ⟨hsettled, horder⟩
  · cases herr.symm.trans h

/-- A complete graph without cycle has a delivery order. -/
theorem resolve_of_not_cyclic {g : Graph} (hcomplete : g.Complete) (hacyclic : ¬g.Cyclic) :
    ∃ order, g.resolve = .ok order ∧ g.IsOrder order := by
  rcases resolve_complete hcomplete with ⟨order, hok, -, horder⟩ | ⟨path, -, hcycle⟩
  · exact ⟨order, hok, horder⟩
  · exact absurd hcycle.cyclic hacyclic

/-- A graph with a delivery order has no cycle. -/
theorem not_cyclic_of_resolve {g : Graph} {order : DeliveryOrder} (h : g.resolve = .ok order) : ¬g.Cyclic := by
  obtain ⟨hsettled, horder⟩ := settled_of_resolve h
  exact hsettled.not_cyclic fun id hid => (horder.listed id).2 hid

/-- The exact outcome for every graph. A dependency that is not listed is reported first, cycle or not; in a complete graph
a cycle is reported as a cycle, and there is an order otherwise. -/
theorem resolve_outcome (g : Graph) :
    (¬g.Complete → ∃ rule dependency, g.FirstMissing rule dependency ∧ g.resolve = .error (.missing rule dependency)) ∧
    (g.Complete → g.Cyclic → ∃ path, g.resolve = .error (.cyclic path) ∧ g.IsCycle path) ∧
    (g.Complete → ¬g.Cyclic → ∃ order, g.resolve = .ok order ∧ g.IsOrder order) := by
  refine ⟨fun hmissing => ?_, fun hcomplete hcyclic => ?_, resolve_of_not_cyclic⟩
  · cases hfound : g.missing? with
    | none => exact absurd (missing?_eq_none_iff.1 hfound) hmissing
    | some pair =>
      refine ⟨pair.1, pair.2, firstMissing_of_missing? hfound, ?_⟩
      rw [resolve, hfound]
  · rcases resolve_complete hcomplete with ⟨order, hok, -, -⟩ | hcycle
    · exact absurd hcyclic (not_cyclic_of_resolve hok)
    · exact hcycle

/-- All three outcomes occur: a rule that misses a dependency and depends on itself, two rules that depend on each other, and
a diamond listed from its top. -/
theorem resolve_outcome_occurs :
    (∃ rule dependency, FirstMissing [("a", ["a", "ghost"])] rule dependency ∧
      resolve [("a", ["a", "ghost"])] = .error (.missing rule dependency)) ∧
    (∃ path, resolve [("a", ["b"]), ("b", ["a"])] = .error (.cyclic path) ∧ IsCycle [("a", ["b"]), ("b", ["a"])] path) ∧
    ∃ order, resolve [("d", ["b", "c"]), ("b", ["a"]), ("c", ["a"]), ("a", [])] = .ok order ∧
      IsOrder [("d", ["b", "c"]), ("b", ["a"]), ("c", ["a"]), ("a", [])] order := by
  have hmissing : ¬Complete [("a", ["a", "ghost"])] := by
    rw [← missing?_eq_none_iff]
    decide
  have hcyclic : Cyclic [("a", ["b"]), ("b", ["a"])] :=
    ⟨"a", .tail (b := "b") (.single ⟨["b"], by simp, by simp⟩) ⟨["a"], by simp, by simp⟩⟩
  have hacyclic : ¬Cyclic [("d", ["b", "c"]), ("b", ["a"]), ("c", ["a"]), ("a", [])] :=
    not_cyclic_of_resolve (show resolve _ = .ok ⟨["a", "b", "c", "d"]⟩ by decide)
  exact ⟨(resolve_outcome _).1 hmissing, (resolve_outcome _).2.1 (missing?_eq_none_iff.1 (by decide)) hcyclic,
    (resolve_outcome _).2.2 (missing?_eq_none_iff.1 (by decide)) hacyclic⟩

end RuleWalk.Graph
