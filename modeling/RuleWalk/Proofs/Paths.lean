import RuleWalk.Proofs.Traversal

/-!
# The paths of a walk

Every moment of a walk has a path, from the visited node to the root. A node is on the paths of the moments from its entering
to its leaving and, if nodes can be told apart, of no others. Then a node also has one place in the tree, so that two paths
share nothing but their ends, and after a node is left no path runs through it.
-/

namespace RuleWalk

/-- The identities of the visited node and of its ancestors. -/
def Moment.path (m : Moment) : List NodeId :=
  m.node.id :: m.ancestry.map Tree.id

/-- Working out the marks cuts a history down to the path. -/
theorem RuleState.history_refresh {K : Type} [Kinds K] (s : RuleState K) (m : Moment) :
    (s.refresh m.node.id (m.ancestry.map Tree.id)).history = s.history.filter (m.path.contains ·.1) := by
  refine List.filter_congr fun entry _ => ?_
  rw [Moment.path, List.contains_cons]

/-! ## Nodes on a path -/

namespace Tree

mutual

/-- The places of a tree are its nodes, below whatever ancestors. -/
theorem map_fst_places (t : Tree) (ancestors : List Tree) : (t.places ancestors).map Prod.fst = t.nodes := by
  cases t with
  | node label children =>
    rw [nodes, places, places, List.map_cons, List.map_cons, map_fst_placesAll children, map_fst_placesAll children]

theorem map_fst_placesAll (ts : List Tree) (ancestors : List Tree) :
    (placesAll ancestors ts).map Prod.fst = ts.flatMap nodes := by
  cases ts with
  | nil => rfl
  | cons t rest =>
    rw [placesAll, List.map_append, map_fst_places t, map_fst_placesAll rest, List.flatMap_cons]

end

theorem nodes_node (label : Label) (children : List Tree) :
    (Tree.node label children).nodes = .node label children :: children.flatMap nodes := by
  rw [nodes, places, List.map_cons, map_fst_placesAll]

mutual

/-- The path of every moment of a walk runs through the ancestors and the tree itself. -/
theorem mem_path_of_ancestor (t : Tree) {ancestry : List Tree} {m : Moment} (h : m ∈ t.moments ancestry) :
    ∀ id ∈ t.id :: ancestry.map Tree.id, id ∈ m.path := by
  cases t with
  | node label children =>
    rw [moments, List.mem_cons, List.mem_append, List.mem_singleton] at h
    rcases h with rfl | h | rfl
    · exact fun id hid => hid
    · exact fun id hid => mem_path_of_ancestor_all children h id hid
    · exact fun id hid => hid

theorem mem_path_of_ancestor_all (ts : List Tree) {ancestry : List Tree} {m : Moment} (h : m ∈ momentsAll ancestry ts) :
    ∀ id ∈ ancestry.map Tree.id, id ∈ m.path := by
  cases ts with
  | nil => exact absurd h List.not_mem_nil
  | cons t rest =>
    rw [momentsAll, List.mem_append] at h
    rcases h with h | h
    · exact fun id hid => mem_path_of_ancestor t h id (List.mem_cons_of_mem _ hid)
    · exact mem_path_of_ancestor_all rest h

end

mutual

/-- The path of a moment of a walk runs through nothing but the ancestors and nodes of the tree. -/
theorem of_mem_path (t : Tree) {ancestry : List Tree} {m : Moment} (h : m ∈ t.moments ancestry) :
    ∀ id ∈ m.path, id ∈ ancestry.map Tree.id ∨ id ∈ t.nodes.map Tree.id := by
  cases t with
  | node label children =>
    have hself : ∀ id ∈ (Tree.node label children).id :: ancestry.map Tree.id,
        id ∈ ancestry.map Tree.id ∨ id ∈ (Tree.node label children).nodes.map Tree.id := by
      intro id hid
      rcases List.mem_cons.1 hid with rfl | hid
      · exact Or.inr (by simp [nodes_node])
      · exact Or.inl hid
    rw [moments, List.mem_cons, List.mem_append, List.mem_singleton] at h
    rcases h with rfl | h | rfl
    · exact hself
    · intro id hid
      rcases of_mem_path_all children h id hid with hid | hid
      · exact hself id hid
      · exact Or.inr (by simp [nodes_node, hid])
    · exact hself

theorem of_mem_path_all (ts : List Tree) {ancestry : List Tree} {m : Moment} (h : m ∈ momentsAll ancestry ts) :
    ∀ id ∈ m.path, id ∈ ancestry.map Tree.id ∨ id ∈ (ts.flatMap nodes).map Tree.id := by
  cases ts with
  | nil => exact absurd h List.not_mem_nil
  | cons t rest =>
    rw [momentsAll, List.mem_append] at h
    intro id hid
    rw [List.flatMap_cons, List.map_append, List.mem_append]
    rcases h with h | h
    · exact (of_mem_path t h id hid).imp_right Or.inl
    · exact (of_mem_path_all rest h id hid).imp_right Or.inr

end

end Tree

/-- What is on the path of an earlier and of a later moment is on the path of all between. -/
def Moment.Contiguous (ms : List Moment) : Prop :=
  ∀ before m after, ms = before ++ m :: after → ∀ x ∈ before, ∀ y ∈ after, ∀ id ∈ x.path, id ∈ y.path → id ∈ m.path

theorem Moment.contiguous_singleton (m : Moment) : Contiguous [m] := by
  intro before m' after heq x hx
  cases before with
  | nil => exact absurd hx List.not_mem_nil
  | cons _ rest => simp at heq

/-- Moments follow contiguous ones contiguously if what is on paths of both is on all paths. -/
theorem Moment.Contiguous.append {ms ms' : List Moment} (h : Contiguous ms) (h' : Contiguous ms')
    (hshared : ∀ x ∈ ms, ∀ y ∈ ms', ∀ id ∈ x.path, id ∈ y.path → ∀ m ∈ ms ++ ms', id ∈ m.path) :
    Contiguous (ms ++ ms') := by
  intro before m after heq x hx y hy id hidx hidy
  have hm : m ∈ ms ++ ms' := by simp [heq]
  rcases List.append_eq_append_iff.1 heq with ⟨front, rfl, rfl⟩ | ⟨back, rfl, hback⟩
  · rcases List.mem_append.1 hx with hx | hx
    · exact hshared x hx y (by simp [hy]) id hidx hidy m hm
    · exact h' front m after rfl x hx y hy id hidx hidy
  · cases back with
    | nil =>
      simp only [List.append_nil, List.nil_append] at *
      subst hback
      exact hshared x hx y (List.mem_cons_of_mem _ hy) id hidx hidy m hm
    | cons m' back =>
      simp only [List.cons_append, List.cons.injEq] at hback
      obtain ⟨rfl, rfl⟩ := hback
      rcases List.mem_append.1 hy with hy | hy
      · exact h before m back rfl x hx y hy id hidx hidy
      · exact hshared x (by simp [hx]) y hy id hidx hidy m hm

namespace Tree

mutual

/-- In a walk of nodes that can be told apart every node is on the paths of one stretch of moments. -/
theorem contiguous_moments (t : Tree) (ancestry : List Tree) (h : (t.nodes.map Tree.id).Nodup) :
    Moment.Contiguous (t.moments ancestry) := by
  cases t with
  | node label children =>
    have hall := fun m (hm : m ∈ (Tree.node label children).moments ancestry) =>
      mem_path_of_ancestor (.node label children) hm
    rw [nodes_node, List.map_cons, List.nodup_cons] at h
    have hinside := (contiguous_momentsAll children (.node label children :: ancestry) h.2).append
      (Moment.contiguous_singleton ⟨.leave, .node label children, ancestry⟩) ?_
    · rw [moments] at hall ⊢
      refine (Moment.contiguous_singleton ⟨.enter, .node label children, ancestry⟩).append hinside ?_
      intro x hx y hy id hidx _ m hm
      cases List.mem_singleton.1 hx
      exact hall m hm id hidx
    · intro x hx y hy id _ hidy m hm
      cases List.mem_singleton.1 hy
      rw [moments] at hall
      exact hall m (List.mem_cons_of_mem _ hm) id hidy

theorem contiguous_momentsAll (ts : List Tree) (ancestry : List Tree) (h : ((ts.flatMap nodes).map Tree.id).Nodup) :
    Moment.Contiguous (momentsAll ancestry ts) := by
  cases ts with
  | nil => exact fun before m after heq => by simp [momentsAll] at heq
  | cons t rest =>
    rw [List.flatMap_cons, List.map_append, List.nodup_append] at h
    rw [momentsAll]
    refine (contiguous_moments t ancestry h.1).append (contiguous_momentsAll rest ancestry h.2.1) ?_
    intro x hx y hy id hidx hidy m hm
    have hancestor : id ∈ ancestry.map Tree.id := by
      rcases of_mem_path t hx id hidx with hid | hid
      · exact hid
      · rcases of_mem_path_all rest hy id hidy with hid' | hid'
        · exact hid'
        · exact absurd rfl (h.2.2 id hid id hid')
    rcases List.mem_append.1 hm with hm | hm
    · exact mem_path_of_ancestor t hm id (List.mem_cons_of_mem _ hancestor)
    · exact mem_path_of_ancestor_all rest hm id hancestor

end

end Tree

/-! ## Places -/

namespace Tree

mutual

/-- The moments of a walk are visits of the places of the tree. -/
theorem mem_places_of_mem_moments (t : Tree) {ancestry : List Tree} {m : Moment} (h : m ∈ t.moments ancestry) :
    (m.node, m.ancestry) ∈ t.places ancestry := by
  cases t with
  | node label children =>
    rw [moments, List.mem_cons, List.mem_append, List.mem_singleton] at h
    rw [places]
    rcases h with rfl | h | rfl
    · exact List.mem_cons_self
    · exact List.mem_cons_of_mem _ (mem_placesAll_of_mem_momentsAll children h)
    · exact List.mem_cons_self

theorem mem_placesAll_of_mem_momentsAll (ts : List Tree) {ancestry : List Tree} {m : Moment}
    (h : m ∈ momentsAll ancestry ts) : (m.node, m.ancestry) ∈ placesAll ancestry ts := by
  cases ts with
  | nil => exact absurd h List.not_mem_nil
  | cons t rest =>
    rw [momentsAll, List.mem_append] at h
    rw [placesAll, List.mem_append]
    exact h.imp (mem_places_of_mem_moments t) (mem_placesAll_of_mem_momentsAll rest)

end

theorem id_mem_of_mem_momentsAll {ts : List Tree} {ancestry : List Tree} {m : Moment} (h : m ∈ momentsAll ancestry ts) :
    m.node.id ∈ (ts.flatMap nodes).map Tree.id := by
  rw [← map_fst_placesAll ts ancestry, List.map_map]
  exact List.mem_map_of_mem (mem_placesAll_of_mem_momentsAll ts h)

mutual

/-- The ancestors of a place have places too, unless they are above the tree. -/
theorem mem_places_of_suffix (t : Tree) {base : List Tree} {place : Tree × List Tree} (h : place ∈ t.places base) {a : Tree}
    {above : List Tree} (hsuffix : (a :: above) <:+ (place.1 :: place.2)) :
    (a, above) ∈ t.places base ∨ (a :: above) <:+ base := by
  cases t with
  | node label children =>
    have hself : (a :: above) <:+ (.node label children :: base) →
        (a, above) ∈ (Tree.node label children).places base ∨ (a :: above) <:+ base := by
      intro hsuffix
      rcases List.suffix_cons_iff.1 hsuffix with heq | hsuffix
      · cases heq
        rw [places]
        exact Or.inl List.mem_cons_self
      · exact Or.inr hsuffix
    rw [places, List.mem_cons] at h
    rcases h with rfl | h
    · exact hself hsuffix
    · rcases mem_placesAll_of_suffix children h hsuffix with hmem | hsuffix
      · rw [places]
        exact Or.inl (List.mem_cons_of_mem _ hmem)
      · exact hself hsuffix

theorem mem_placesAll_of_suffix (ts : List Tree) {base : List Tree} {place : Tree × List Tree}
    (h : place ∈ placesAll base ts) {a : Tree} {above : List Tree} (hsuffix : (a :: above) <:+ (place.1 :: place.2)) :
    (a, above) ∈ placesAll base ts ∨ (a :: above) <:+ base := by
  cases ts with
  | nil => exact absurd h List.not_mem_nil
  | cons t rest =>
    rw [placesAll, List.mem_append] at h ⊢
    rcases h with h | h
    · exact (mem_places_of_suffix t h hsuffix).imp_left Or.inl
    · exact (mem_placesAll_of_suffix rest h hsuffix).imp_left Or.inr

end

/-- The visited node and each of its ancestors have their places in the tree. -/
theorem mem_places_of_suffix_moment {root : Tree} {m : Moment} (hm : m ∈ root.moments []) {a : Tree} {above : List Tree}
    (hsuffix : (a :: above) <:+ (m.node :: m.ancestry)) : (a, above) ∈ root.places [] := by
  rcases mem_places_of_suffix root (mem_places_of_mem_moments root hm) hsuffix with hmem | habsurd
  · exact hmem
  · exact absurd (List.suffix_nil.1 habsurd) (List.cons_ne_nil _ _)

section Distinct

variable {root : Tree} (h : (root.nodes.map Tree.id).Nodup)

include h

/-- Nodes that can be told apart have one place each. -/
theorem place_unique {place place' : Tree × List Tree} (hplace : place ∈ root.places []) (hplace' : place' ∈ root.places [])
    (hid : place.1.id = place'.1.id) : place = place' := by
  rw [nodes, List.map_map] at h
  exact List.inj_on_of_nodup_map h hplace hplace' hid

/-- A path that runs through a node goes on through the ancestors of the node. -/
theorem suffix_path {m : Moment} (hm : m ∈ root.moments []) {a : Tree} {above : List Tree}
    (hplace : (a, above) ∈ root.places []) (hid : a.id ∈ m.path) : (a :: above).map Tree.id <:+ m.path := by
  have hpath : m.path = (m.node :: m.ancestry).map Tree.id := rfl
  rw [hpath, List.mem_map] at hid
  obtain ⟨b, hb, hid⟩ := hid
  obtain ⟨before, after, hsplit⟩ := List.append_of_mem hb
  have hsuffix : (b :: after) <:+ (m.node :: m.ancestry) := ⟨before, hsplit.symm⟩
  cases place_unique h (mem_places_of_suffix_moment hm hsuffix) hplace hid
  rw [hpath]
  exact hsuffix.map _

/-- No path comes to a node twice. -/
theorem nodup_path {m : Moment} (hm : m ∈ root.moments []) : m.path.Nodup := by
  have hends : ∀ l, l <:+ (m.node :: m.ancestry) → (l.map Tree.id).Nodup := by
    intro l
    induction l with
    | nil => exact fun _ => List.nodup_nil
    | cons a above ih =>
      intro hsuffix
      refine List.nodup_cons.2 ⟨fun hid => ?_, ih ((List.suffix_cons _ _).trans hsuffix)⟩
      -- a second node of this identity would have the same place, and so as many ancestors
      obtain ⟨b, hb, hsame⟩ := List.mem_map.1 hid
      obtain ⟨before, after, rfl⟩ := List.append_of_mem hb
      have hsuffix' : (b :: after) <:+ (m.node :: m.ancestry) :=
        ((List.suffix_append before _).trans (List.suffix_cons _ _)).trans hsuffix
      have heq := place_unique h (mem_places_of_suffix_moment hm hsuffix') (mem_places_of_suffix_moment hm hsuffix) hsame
      have hlength := congrArg (fun place => place.2.length) heq
      simp only [List.length_append, List.length_cons] at hlength
      omega
  exact hends _ List.suffix_rfl

/-- What a path shares with another comes in the order of the other. -/
theorem filter_path_sublist {x y : Moment} (hx : x ∈ root.moments []) (hy : y ∈ root.moments []) :
    (x.path.filter (y.path.contains ·)).Sublist y.path := by
  have hends : ∀ l, l <:+ (x.node :: x.ancestry) → ((l.map Tree.id).filter (y.path.contains ·)).Sublist y.path := by
    intro l
    induction l with
    | nil => exact fun _ => List.nil_sublist _
    | cons a above ih =>
      intro hsuffix
      by_cases hid : a.id ∈ y.path
      · exact List.filter_sublist.trans (suffix_path h hy (mem_places_of_suffix_moment hx hsuffix) hid).sublist
      · rw [List.map_cons, List.filter_cons_of_neg (by simpa using hid)]
        exact ih ((List.suffix_cons _ _).trans hsuffix)
  exact hends _ List.suffix_rfl

/-- Two paths share the same, seen from either. -/
theorem filter_path_comm {x y : Moment} (hx : x ∈ root.moments []) (hy : y ∈ root.moments []) :
    x.path.filter (y.path.contains ·) = y.path.filter (x.path.contains ·) := by
  have hsub : ∀ {x y : Moment}, x ∈ root.moments [] → y ∈ root.moments [] →
      (x.path.filter (y.path.contains ·)).Sublist (y.path.filter (x.path.contains ·)) := by
    intro x y hx hy
    have hfilter := (filter_path_sublist h hx hy).filter (x.path.contains ·)
    rwa [List.filter_eq_self.2 fun id hid => by simpa using (List.mem_filter.1 hid).1] at hfilter
  exact (hsub hx hy).antisymm (hsub hy hx)

end Distinct

mutual

/-- After a node is left no path runs through it. -/
theorem left_moments (t : Tree) (ancestry : List Tree) (h : (t.nodes.map Tree.id).Nodup)
    (hancestry : ∀ id ∈ t.nodes.map Tree.id, id ∉ ancestry.map Tree.id) :
    (t.moments ancestry).Pairwise fun x y => x.direction = .leave → x.node.id ∉ y.path := by
  cases t with
  | node label children =>
    rw [nodes_node, List.map_cons] at h hancestry
    rw [List.nodup_cons] at h
    have hbelow : ∀ id ∈ (children.flatMap nodes).map Tree.id,
        id ∉ ((Tree.node label children) :: ancestry).map Tree.id := by
      intro id hid hmem
      rcases List.mem_cons.1 hmem with rfl | hmem
      · exact h.1 hid
      · exact hancestry id (List.mem_cons_of_mem _ hid) hmem
    rw [moments, List.pairwise_cons, List.pairwise_append]
    refine ⟨(fun _ _ hleave => nomatch hleave), left_momentsAll children _ h.2 hbelow, List.pairwise_singleton _ _, ?_⟩
    intro x hx y hy _
    cases List.mem_singleton.1 hy
    exact hbelow _ (id_mem_of_mem_momentsAll hx)

theorem left_momentsAll (ts : List Tree) (ancestry : List Tree) (h : ((ts.flatMap nodes).map Tree.id).Nodup)
    (hancestry : ∀ id ∈ (ts.flatMap nodes).map Tree.id, id ∉ ancestry.map Tree.id) :
    (momentsAll ancestry ts).Pairwise fun x y => x.direction = .leave → x.node.id ∉ y.path := by
  cases ts with
  | nil => exact List.Pairwise.nil
  | cons t rest =>
    rw [List.flatMap_cons, List.map_append] at h hancestry
    rw [List.nodup_append] at h
    rw [momentsAll, List.pairwise_append]
    refine ⟨left_moments t ancestry h.1 fun id hid => hancestry id (List.mem_append_left _ hid),
      left_momentsAll rest ancestry h.2.1 fun id hid => hancestry id (List.mem_append_right _ hid), ?_⟩
    intro x hx y hy _ hpath
    have hid : x.node.id ∈ t.nodes.map Tree.id := by
      rw [← map_fst_places t ancestry, List.map_map]
      exact List.mem_map_of_mem (mem_places_of_mem_moments t hx)
    rcases of_mem_path_all rest hy _ hpath with hmem | hmem
    · exact hancestry _ (List.mem_append_left _ hid) hmem
    · exact h.2.2 _ hid _ hmem rfl

end

end Tree

/-- The moments of a walk in which nodes can be told apart: a node is on the paths of one stretch of moments, which ends when
it is left; no path comes to a node twice; and two paths share the same, in the same order, seen from either. -/
structure Moment.Tidy (ms : List Moment) : Prop where
  contiguous : Contiguous ms
  left : ms.Pairwise fun x y => x.direction = .leave → x.node.id ∉ y.path
  nodup : ∀ m ∈ ms, m.path.Nodup
  shared : ∀ x ∈ ms, ∀ y ∈ ms, x.path.filter (y.path.contains ·) = y.path.filter (x.path.contains ·)

theorem Tree.tidy_moments {root : Tree} (h : (root.nodes.map Tree.id).Nodup) : Moment.Tidy (root.moments []) where
  contiguous := root.contiguous_moments [] h
  left := root.left_moments [] h fun _ _ => List.not_mem_nil
  nodup _ hm := nodup_path h hm
  shared _ hx _ hy := filter_path_comm h hx hy

end RuleWalk
