import RuleWalk.Proofs.Calls
import RuleWalk.Proofs.Paths

/-!
# Marks are exact

The marks of an instance are worked out from a history that is cut down to the path of a visit, and only where something is
delivered. In a walk of nodes that can be told apart this loses nothing: at every point of every call the history holds the
nodes of the path that have written the instance, each once and nearest first, with the mark of the latest write there. So a
mark tells of the latest write at the node itself, or of a write on the way into an ancestor, and no visitor can tell whether
marks are worked out at every visit or only where they are needed.
-/

namespace RuleWalk

variable {K : Type} [Kinds K] {Note : Type}

/-! ## Writes -/

/-- A write that has succeeded: the instance and the visit it was made at. -/
structure Write where
  tag : StateTag
  moment : Moment

namespace Write

/-- Whether the write was made to an instance at a node. -/
def isAt (x : Write) (tag : StateTag) (id : NodeId) : Bool :=
  decide (x.tag = tag) && decide (x.moment.node.id = id)

/-- The mark of the latest of some writes, given in order, to an instance at a node. -/
def latest? (writes : List Write) (tag : StateTag) (id : NodeId) : Option Visit :=
  (writes.reverse.find? (·.isAt tag id)).map (·.moment.direction.visit)

/-- Some write to an instance was made on the way into an ancestor of the visited node. -/
def Above (writes : List Write) (tag : StateTag) (m : Moment) : Prop :=
  ∃ x ∈ writes, x.tag = tag ∧ x.moment.direction = .enter ∧ x.moment.node.id ∈ m.ancestry.map Tree.id

instance (writes : List Write) (tag : StateTag) (m : Moment) : Decidable (Above writes tag m) :=
  inferInstanceAs (Decidable (∃ x ∈ writes, x.tag = tag ∧ x.moment.direction = .enter ∧
    x.moment.node.id ∈ m.ancestry.map Tree.id))

theorem isAt_iff {x : Write} {tag : StateTag} {id : NodeId} : x.isAt tag id ↔ x.tag = tag ∧ x.moment.node.id = id := by
  simp [isAt]

theorem latest?_concat (writes : List Write) (x : Write) (tag : StateTag) (id : NodeId) :
    latest? (writes ++ [x]) tag id = if x.isAt tag id then some x.moment.direction.visit else latest? writes tag id := by
  rw [latest?, List.reverse_append, List.reverse_singleton, List.singleton_append, List.find?_cons]
  cases x.isAt tag id <;> rfl

theorem latest?_eq_some {writes : List Write} {tag : StateTag} {id : NodeId} {visit : Visit}
    (h : latest? writes tag id = some visit) :
    ∃ x ∈ writes, x.tag = tag ∧ x.moment.node.id = id ∧ x.moment.direction.visit = visit := by
  obtain ⟨x, hx, rfl⟩ := Option.map_eq_some_iff.1 h
  have hat : x.isAt tag id := by simpa using List.find?_some hx
  obtain ⟨htag, hid⟩ := isAt_iff.1 hat
  exact ⟨x, List.mem_reverse.1 (List.mem_of_find?_eq_some hx), htag, hid, rfl⟩

theorem latest?_eq_none_iff {writes : List Write} {tag : StateTag} {id : NodeId} :
    latest? writes tag id = none ↔ ∀ x ∈ writes, x.tag = tag → x.moment.node.id ≠ id := by
  rw [latest?, Option.map_eq_none_iff, List.find?_eq_none]
  simp only [List.mem_reverse, isAt_iff, not_and]

/-- What writes to an instance leave on a path: the nodes that wrote it, in the order of the path, each with the mark of its
latest write. -/
def trail (writes : List Write) (tag : StateTag) (path : List NodeId) : List (NodeId × Visit) :=
  path.filterMap fun id => (latest? writes tag id).map (id, ·)

theorem trail_cons (writes : List Write) (tag : StateTag) (id : NodeId) (path : List NodeId) :
    trail writes tag (id :: path) = ((latest? writes tag id).map (id, ·)).toList ++ trail writes tag path := by
  rw [trail, List.filterMap_cons]
  cases latest? writes tag id <;> rfl

theorem lookup_trail (writes : List Write) (tag : StateTag) (path : List NodeId) (id : NodeId) :
    (trail writes tag path).lookup id = if id ∈ path then latest? writes tag id else none := by
  induction path with
  | nil => rfl
  | cons first rest ih =>
    rw [trail_cons]
    by_cases hid : id = first
    · subst hid
      cases hlatest : latest? writes tag id with
      | some visit => simp
      | none => simp [ih, hlatest]
    · cases latest? writes tag first with
      | some visit => simpa [lookup_cons_eq, hid] using ih
      | none => simpa [hid] using ih

theorem keys_trail (writes : List Write) (tag : StateTag) (path : List NodeId) :
    ((trail writes tag path).map Prod.fst).Sublist path := by
  induction path with
  | nil => exact List.Sublist.refl _
  | cons id rest ih =>
    rw [trail_cons]
    cases latest? writes tag id with
    | some visit => exact ih.cons_cons id
    | none => exact ih.cons id

theorem filter_trail (writes : List Write) (tag : StateTag) (path : List NodeId) (keep : NodeId → Bool) :
    (trail writes tag path).filter (keep ·.1) = trail writes tag (path.filter keep) := by
  induction path with
  | nil => rfl
  | cons id rest ih =>
    rw [trail_cons, List.filter_append, ih]
    cases hkeep : keep id with
    | true =>
      rw [List.filter_cons_of_pos hkeep, trail_cons]
      cases latest? writes tag id <;> simp [hkeep]
    | false =>
      rw [List.filter_cons_of_neg (by simp [hkeep])]
      cases latest? writes tag id <;> simp [hkeep]

/-- Nodes that have not written leave nothing. -/
theorem trail_filter (writes : List Write) (tag : StateTag) (path : List NodeId) (keep : NodeId → Bool)
    (h : ∀ id ∈ path, ¬keep id → latest? writes tag id = none) :
    trail writes tag (path.filter keep) = trail writes tag path := by
  induction path with
  | nil => rfl
  | cons id rest ih =>
    have hrest := ih fun id hid => h id (List.mem_cons_of_mem _ hid)
    by_cases hkeep : keep id
    · rw [List.filter_cons_of_pos hkeep, trail_cons, trail_cons, hrest]
    · rw [List.filter_cons_of_neg hkeep, trail_cons, h id List.mem_cons_self hkeep, hrest]
      rfl

end Write

/-! ## Marked states -/

namespace RuleState

open Write

/-- The state with the marks and the history that some writes call for at a moment. -/
def markedAt (s : RuleState K) (writes : List Write) (tag : StateTag) (m : Moment) : RuleState K :=
  { s with
    current := (latest? writes tag m.node.id).getD .stale
    ancestor := if Above writes tag m then .onEntry else .stale
    history := trail writes tag m.path }

/-- Marks are worked out as the writes call for, if the history holds what they leave on the path and no ancestor has been
left yet. -/
theorem refresh_eq_markedAt {s : RuleState K} {writes : List Write} {tag : StateTag} {m : Moment}
    (hhistory : s.history.filter (m.path.contains ·.1) = trail writes tag m.path)
    (hentered : ∀ x ∈ writes, x.moment.node.id ∈ m.ancestry.map Tree.id → x.moment.direction = .enter) :
    s.refresh m.node.id (m.ancestry.map Tree.id) = s.markedAt writes tag m := by
  rw [← history_refresh] at hhistory
  have hlookup : ∀ id ∈ m.path, (trail writes tag m.path).lookup id = latest? writes tag id :=
    fun id hid => (lookup_trail writes tag m.path id).trans (if_pos hid)
  -- the nearest ancestor that wrote gives the mark, and every ancestor that wrote did so on the way in
  have hancestor : ((m.ancestry.map Tree.id).findSome? fun id => (trail writes tag m.path).lookup id).getD .stale =
      if Above writes tag m then .onEntry else .stale := by
    cases hfind : (m.ancestry.map Tree.id).findSome? fun id => (trail writes tag m.path).lookup id with
    | some visit =>
      obtain ⟨id, hid, hvisit⟩ := List.exists_of_findSome?_eq_some hfind
      rw [hlookup id (List.mem_cons_of_mem _ hid)] at hvisit
      obtain ⟨x, hx, htag, rfl, rfl⟩ := latest?_eq_some hvisit
      have henter := hentered x hx hid
      rw [if_pos ⟨x, hx, htag, henter, hid⟩, henter]
      rfl
    | none =>
      have habove : ¬Above writes tag m := by
        rintro ⟨x, hx, htag, -, hid⟩
        have hnone := List.findSome?_eq_none_iff.1 hfind _ hid
        rw [hlookup _ (List.mem_cons_of_mem _ hid)] at hnone
        exact latest?_eq_none_iff.1 hnone x hx htag rfl
      rw [if_neg habove]
      rfl
  unfold refresh at hhistory ⊢
  dsimp only at hhistory ⊢
  rw [hhistory, hlookup m.node.id List.mem_cons_self, hancestor]
  rfl

theorem recordWrite_trail {writes : List Write} {tag : StateTag} {id : NodeId} {above : List NodeId} (h : id ∉ above)
    (visit : Visit) :
    recordWrite id visit (trail writes tag (id :: above)) = (id, visit) :: trail writes tag above := by
  rw [trail_cons]
  cases latest? writes tag id with
  | some last => simp [recordWrite]
  | none =>
    rw [Option.map_none, Option.toList_none, List.nil_append]
    cases htrail : trail writes tag above with
    | nil => rfl
    | cons entry earlier =>
      have hmem : entry.1 ∈ above := (keys_trail writes tag above).subset (by simp [htrail])
      have hne : entry.1 ≠ id := fun heq => h (heq ▸ hmem)
      simp [recordWrite, hne]

theorem trail_concat_of_not {writes : List Write} {x : Write} {tag : StateTag} {path : List NodeId}
    (h : ∀ id ∈ path, ¬x.isAt tag id) : trail (writes ++ [x]) tag path = trail writes tag path := by
  refine List.filterMap_congr fun id hid => ?_
  rw [latest?_concat, if_neg (h id hid)]

theorem above_concat {writes : List Write} {x : Write} {tag : StateTag} {m : Moment}
    (h : x.tag = tag → x.moment.node.id ∉ m.ancestry.map Tree.id) : Above (writes ++ [x]) tag m ↔ Above writes tag m := by
  constructor
  · rintro ⟨y, hy, htag, henter, hid⟩
    rcases List.mem_append.1 hy with hy | hy
    · exact ⟨y, hy, htag, henter, hid⟩
    · cases List.mem_singleton.1 hy
      exact absurd hid (h htag)
  · rintro ⟨y, hy, hspec⟩
    exact ⟨y, List.mem_append_left _ hy, hspec⟩

/-- A write to another instance calls for the same marks. -/
theorem markedAt_concat_of_ne (s : RuleState K) (writes : List Write) {x : Write} {tag : StateTag} (m : Moment)
    (h : x.tag ≠ tag) : s.markedAt (writes ++ [x]) tag m = s.markedAt writes tag m := by
  have hnot : ∀ id, ¬x.isAt tag id := fun id hat => h (isAt_iff.1 hat).1
  unfold markedAt
  rw [latest?_concat, if_neg (hnot _), trail_concat_of_not fun id _ => hnot id]
  simp only [above_concat fun htag => absurd htag h]

/-- A write at the visited node leaves the state marked as it calls for. -/
theorem markedAt_update {s s' : RuleState K} {writes : List Write} {tag : StateTag} {m : Moment} (hnodup : m.path.Nodup)
    (h : s = s.markedAt writes tag m) {k : K} {f : Carrier k → Carrier k}
    (hup : s.update? k f m.node.id m.direction.visit = some s') : s' = s'.markedAt (writes ++ [⟨tag, m⟩]) tag m := by
  obtain ⟨old, -, rfl⟩ := Option.map_eq_some_iff.1 hup
  have hid : m.node.id ∉ m.ancestry.map Tree.id := (List.nodup_cons.1 hnodup).1
  have hself : (⟨tag, m⟩ : Write).isAt tag m.node.id := isAt_iff.2 ⟨rfl, rfl⟩
  have hothers : ∀ id ∈ m.ancestry.map Tree.id, ¬(⟨tag, m⟩ : Write).isAt tag id :=
    fun id hmem hat => hid ((isAt_iff.1 hat).2 ▸ hmem)
  have hhistory : recordWrite m.node.id m.direction.visit s.history = trail (writes ++ [⟨tag, m⟩]) tag m.path := by
    rw [h]
    change recordWrite m.node.id m.direction.visit (trail writes tag (m.node.id :: m.ancestry.map Tree.id)) =
      trail (writes ++ [⟨tag, m⟩]) tag (m.node.id :: m.ancestry.map Tree.id)
    rw [recordWrite_trail hid, trail_cons, latest?_concat, if_pos hself, trail_concat_of_not hothers]
    rfl
  have hancestor : s.ancestor = if Above (writes ++ [⟨tag, m⟩]) tag m then .onEntry else .stale := by
    have habove : Above (writes ++ [⟨tag, m⟩]) tag m ↔ Above writes tag m := above_concat fun _ => hid
    rw [h]
    simp only [habove]
    rfl
  unfold markedAt
  rw [hhistory, ← hancestor, latest?_concat, if_pos hself]
  rfl

end RuleState

/-! ## Marked tables -/

namespace StateTable

variable {writes : List Write} {m : Moment} {past rest : List Moment} {t : StateTable K}

/-- All instances are marked as some writes call for at a moment. -/
def MarkedAt (writes : List Write) (m : Moment) (t : StateTable K) : Prop :=
  ∀ tag state, t.find? tag = some state → state = state.markedAt writes tag m

/-- Wherever marks are worked out next, they come out as some writes call for. -/
def Tracked (rest : List Moment) (writes : List Write) (t : StateTable K) : Prop :=
  ∀ tag state, t.find? tag = some state → ∀ y ∈ rest,
    state.refresh y.node.id (y.ancestry.map Tree.id) = state.markedAt writes tag y

theorem Tracked.refresh (h : Tracked (m :: rest) writes t) :
    MarkedAt writes m (t.refresh m.node.id (m.ancestry.map Tree.id)) := by
  intro tag state hfind
  rw [find?_refresh] at hfind
  obtain ⟨old, hold, rfl⟩ := Option.map_eq_some_iff.1 hfind
  rw [h tag old hold m List.mem_cons_self]
  rfl

theorem Tracked.tail (h : Tracked (m :: rest) writes t) : Tracked rest writes t :=
  fun tag state hfind y hy => h tag state hfind y (List.mem_cons_of_mem _ hy)

theorem tracked_nil {ms : List Moment} (h : ∀ tag state, t.find? tag = some state → state.history = []) :
    Tracked ms [] t := by
  intro tag state hfind y _
  refine RuleState.refresh_eq_markedAt ?_ nofun
  rw [h tag state hfind]
  exact (List.filterMap_eq_nil_iff.2 fun _ _ => rfl).symm

/-- What is marked at a moment of a tidy walk is tracked from there on. A node that has written and is on a later path is also
on the path of the moment; and it has not been left if it is an ancestor there. -/
theorem MarkedAt.tracked (htidy : Moment.Tidy (past ++ m :: rest)) (hwrites : ∀ x ∈ writes, x.moment ∈ past ++ [m])
    (h : MarkedAt writes m t) : Tracked rest writes t := by
  intro tag state hfind y hy
  have hm : m ∈ past ++ m :: rest := by simp
  have hy' : y ∈ past ++ m :: rest := by simp [hy]
  refine RuleState.refresh_eq_markedAt ?_ fun x hx hid => ?_
  · have hhistory : state.history = Write.trail writes tag m.path := congrArg RuleState.history (h tag state hfind)
    rw [hhistory, Write.filter_trail writes tag m.path (y.path.contains ·), htidy.shared m hm y hy']
    refine Write.trail_filter writes tag y.path (m.path.contains ·) fun id hid hkeep => ?_
    refine Write.latest?_eq_none_iff.2 fun x hx _ heq => hkeep (List.contains_iff_mem.2 ?_)
    subst heq
    rcases List.mem_append.1 (hwrites x hx) with hpast | hlast
    · exact htidy.contiguous past m rest rfl x.moment hpast y hy _ List.mem_cons_self hid
    · rw [List.mem_singleton.1 hlast]
      exact List.mem_cons_self
  · have hbefore : past ++ m :: rest = (past ++ [m]) ++ rest := by simp
    have hleft := (List.pairwise_append.1 (hbefore ▸ htidy.left)).2.2 x.moment (hwrites x hx) y hy
    cases hdirection : x.moment.direction with
    | enter => rfl
    | leave => exact absurd (List.mem_cons_of_mem _ hid) (hleft hdirection)

/-- A write at the visited node keeps all instances marked. -/
theorem MarkedAt.updated {tag : StateTag} {k : K} {f : Carrier k → Carrier k} {t' : StateTable K} (hnodup : m.path.Nodup)
    (h : MarkedAt writes m t) (hup : t.updated tag k f m.node.id m.direction.visit = .ok t') :
    MarkedAt (writes ++ [⟨tag, m⟩]) m t' := by
  obtain ⟨state, state', hfind, hstate, hall⟩ := find?_updated hup
  intro other new hnew
  rw [hall] at hnew
  by_cases hother : other = tag
  · subst hother
    rw [if_pos rfl] at hnew
    cases hnew
    exact RuleState.markedAt_update hnodup (h _ _ hfind) hstate
  · rw [if_neg hother] at hnew
    rw [RuleState.markedAt_concat_of_ne new writes m (Ne.symm hother)]
    exact h _ _ hnew

end StateTable

/-- The marks of all instances are exact for the writes made so far: one tells the latest write at the visited node, the other
whether there was a write on the way into an ancestor. No history holds a node twice. -/
structure World.Exact (writes : List Write) (m : Moment) (w : World K Note) : Prop where
  current : ∀ tag state, w.states.find? tag = some state →
    state.current = (Write.latest? writes tag m.node.id).getD .stale
  ancestor : ∀ tag state, w.states.find? tag = some state →
    state.ancestor = if Write.Above writes tag m then .onEntry else .stale
  once : ∀ tag state, w.states.find? tag = some state → (state.history.map Prod.fst).Nodup

theorem World.exact_of_markedAt {writes : List Write} {m : Moment} {w : World K Note} (hnodup : m.path.Nodup)
    (h : w.states.MarkedAt writes m) : w.Exact writes m where
  current tag state hfind := congrArg RuleState.current (h tag state hfind)
  ancestor tag state hfind := congrArg RuleState.ancestor (h tag state hfind)
  once tag state hfind := by
    have hhistory : state.history = Write.trail writes tag m.path := congrArg RuleState.history (h tag state hfind)
    rw [hhistory]
    exact (Write.keys_trail writes tag m.path).nodup hnodup

/-! ## The points of a call -/

/-- The write that an action has made, given as `x`, if it has made one. -/
def Effect.writes (x : Write) : Effect K → List Write
  | .wrote => [x]
  | _ => []

theorem Binding.writes_effect (b : Binding) (states : StateTable K) (rule : String) (k : K) (x : Write) :
    (b.effect states rule k).writes x = [] := by
  unfold Binding.effect
  split <;> rfl

namespace Act

variable (x : Write)

/-- The writes of a log, each of them given as `x`. -/
def writes (log : List (Act K Note)) : List Write :=
  log.flatMap (·.effect.writes x)

/-- The points of a log, one before each action and one at the end: what has been written by then, after earlier writes, and
the world as it is there. -/
def points (last : World K Note) : List (Act K Note) → List Write → List (List Write × World K Note)
  | [], earlier => [(earlier, last)]
  | act :: rest, earlier => (earlier, act.world) :: points last rest (earlier ++ act.effect.writes x)

/-- The last point is the end, with all writes. -/
theorem end_mem_points (last : World K Note) (log : List (Act K Note)) (earlier : List Write) :
    (earlier ++ writes x log, last) ∈ points x last log earlier := by
  induction log generalizing earlier with
  | nil => simp [writes, points]
  | cons act rest ih =>
    have hrest := ih (earlier ++ act.effect.writes x)
    rw [List.append_assoc] at hrest
    exact List.mem_cons_of_mem _ hrest

end Act

namespace Script

variable (b : Binding) (scene : Scene) (x : Write)

/-- The writes of a script that succeed, each of them given as `x`. -/
def writes (script : Script K Note) (w : World K Note) : List Write :=
  Act.writes x (script.runLogged b scene w).1

/-- The points a script comes to, one before each of its actions and one at its end. -/
def points (script : Script K Note) (earlier : List Write) (w : World K Note) : List (List Write × World K Note) :=
  let (log, result) := script.runLogged b scene w
  Act.points x (Halt.last result) log earlier

/-- The last point of a script is its end, with all its writes. -/
theorem end_mem_points (script : Script K Note) (earlier : List Write) (w : World K Note) :
    (earlier ++ script.writes b scene x w, Halt.last (script.run b scene w)) ∈ script.points b scene x earlier w := by
  rw [← forget_runLogged]
  exact Act.end_mem_points x _ _ earlier

/-- The writes of a script are all the same write. -/
theorem eq_of_mem_writes {script : Script K Note} {w : World K Note} {y : Write} (h : y ∈ script.writes b scene x w) :
    y = x := by
  obtain ⟨act, -, hy⟩ := List.mem_flatMap.1 h
  unfold Effect.writes at hy
  split at hy
  · exact List.mem_singleton.1 hy
  · exact absurd hy List.not_mem_nil

theorem points_update (k : K) (f : Carrier k → Carrier k) (next : Except EngineError Unit → Script K Note)
    (earlier : List Write) (w : World K Note) : (Script.update k f next).points b scene x earlier w =
      (earlier, w) :: match w.states.updated b.tag k f scene.node.id scene.visit with
      | .ok states => (next (.ok ())).points b scene x (earlier ++ [x]) { w with states := states }
      | .error e => (next (.error (.state e))).points b scene x (earlier ++ []) w := by
  rw [points, runLogged_update]
  cases w.states.updated b.tag k f scene.node.id scene.visit <;> rfl

/-- What holds of the table at the start and is kept by the writes of a script holds at all its points. -/
theorem points_keep {b : Binding} {scene : Scene} {x : Write} {P : List Write → StateTable K → Prop}
    (hwrite : ∀ earlier t k f t', P earlier t → t.updated b.tag k f scene.node.id scene.visit = .ok t' →
      P (earlier ++ [x]) t') {script : Script K Note} {earlier : List Write} {w : World K Note} (h : P earlier w.states)
    {point : List Write × World K Note} (hpoint : point ∈ script.points b scene x earlier w) :
    P point.1 point.2.states := by
  induction script generalizing earlier w with
  | done => rwa [List.mem_singleton.1 hpoint]
  | fail e => rwa [List.mem_singleton.1 hpoint]
  | read k next ih =>
    rcases List.mem_cons.1 hpoint with rfl | hpoint
    · exact h
    · exact ih _ (by rwa [← List.append_nil earlier] at h) hpoint
  | update k f next ih =>
    rw [points_update] at hpoint
    rcases List.mem_cons.1 hpoint with rfl | hpoint
    · exact h
    · split at hpoint
      · rename_i states hup
        exact ih _ (hwrite _ _ _ _ _ h hup) hpoint
      · exact ih _ (by rwa [← List.append_nil earlier] at h) hpoint
  | request rule k next ih =>
    rcases List.mem_cons.1 hpoint with rfl | hpoint
    · exact h
    · exact ih _ (by rwa [← List.append_nil earlier, ← b.writes_effect w.states rule k x] at h) hpoint
  | report severity node message next ih =>
    rcases List.mem_cons.1 hpoint with rfl | hpoint
    · exact h
    · exact ih (w := { w with diagnostics := _ }) (by rwa [← List.append_nil earlier] at h) hpoint
  | note n next ih =>
    rcases List.mem_cons.1 hpoint with rfl | hpoint
    · exact h
    · exact ih (w := { w with notes := _ }) (by rwa [← List.append_nil earlier] at h) hpoint

/-- What is marked for the visit of a script stays so at all its points. -/
theorem points_marked {m : Moment} (hnodup : m.path.Nodup) (hnode : scene.node = m.node)
    (hvisit : scene.visit = m.direction.visit) {script : Script K Note} {earlier : List Write} {w : World K Note}
    (h : w.states.MarkedAt earlier m) {point : List Write × World K Note}
    (hpoint : point ∈ script.points b scene ⟨b.tag, m⟩ earlier w) : point.2.states.MarkedAt point.1 m := by
  refine points_keep (P := fun writes t => t.MarkedAt writes m) ?_ h hpoint
  intro earlier t k f t' hmarked hup
  rw [hnode, hvisit] at hup
  exact hmarked.updated hnodup hup

end Script

namespace Call

variable (source : Source) (c : Call K Note)

/-- The binding that a call is made for. -/
def binding : Binding :=
  c.emission.listener.binding

/-- The scene that a call is made at. -/
def scene : Scene :=
  c.binding.scene source c.moment.direction c.moment.node c.moment.ancestry

/-- The successful writes of a call. -/
def writes : List Write :=
  (c.emission.listener.visitor.script (c.scene source)).writes c.binding (c.scene source) ⟨c.binding.tag, c.moment⟩ c.world

/-- The points of a call that is made after earlier writes. -/
def points (earlier : List Write) : List (List Write × World K Note) :=
  (c.emission.listener.visitor.script (c.scene source)).points c.binding (c.scene source) ⟨c.binding.tag, c.moment⟩ earlier
    c.world

/-- At every point of every call of a log the marks are exact for the writes of the log up to there. -/
def AllExact (calls : List (Call K Note)) : Prop :=
  ∀ before c after, calls = before ++ c :: after →
    ∀ point ∈ c.points source (before.flatMap (Call.writes source)), point.2.Exact point.1 c.moment

theorem AllExact.concat {calls : List (Call K Note)} {c : Call K Note} (h : AllExact source calls)
    (hc : ∀ point ∈ c.points source (calls.flatMap (Call.writes source)), point.2.Exact point.1 c.moment) :
    AllExact source (calls ++ [c]) := by
  intro before c' after heq
  rcases List.eq_nil_or_concat after with rfl | ⟨after, last, rfl⟩
  · obtain ⟨rfl, hlast⟩ := List.append_inj' heq rfl
    cases hlast
    exact hc
  · rw [List.concat_eq_append, ← List.cons_append, ← List.append_assoc] at heq
    exact h before c' after (List.append_inj_left' heq rfl)

end Call

/-! ## Walks -/

/-- Attends to a moment with all marks worked out first, whether or not anything is delivered. -/
def Moment.attendFresh (index : SelectorIndex (Listener K Note)) (source : Source) (state : World K Note × List (Call K Note))
    (m : Moment) : Except (Halt (World K Note × List (Call K Note)) EngineError) (World K Note × List (Call K Note)) :=
  m.deliverAll index source (⟨state.1.refresh m.node m.ancestry, true⟩, state.2)

/-- A run with a log that works out all marks at every step. -/
def Engine.recordFresh (e : Engine K Note) (root : Tree) (source : Source) : Record K Note :=
  .ofWalk root (root.visit (Moment.attendFresh e.index source) [] ({ states := e.states }, []))

section Walk

variable {index : SelectorIndex (Listener K Note)} {source : Source} {past rest : List Moment} {m : Moment}

/-- How a walk stands between two moments: the log is exact, its writes were made at past moments, the marks of coming moments
will come out right, and no history holds a node twice. -/
structure Trail (source : Source) (past rest : List Moment) (state : World K Note × List (Call K Note)) : Prop where
  log : Call.AllExact source state.2
  past : ∀ x ∈ state.2.flatMap (Call.writes source), x.moment ∈ past
  tracked : state.1.states.Tracked rest (state.2.flatMap (Call.writes source))
  once : ∀ tag s, state.1.states.find? tag = some s → (s.history.map Prod.fst).Nodup

/-- How the deliveries of a moment stand, once the marks are worked out. -/
structure Attending (source : Source) (past : List Moment) (m : Moment) (logged : Session K Note × List (Call K Note)) :
    Prop where
  refreshed : logged.1.refreshed
  log : Call.AllExact source logged.2
  past : ∀ x ∈ logged.2.flatMap (Call.writes source), x.moment ∈ past ++ [m]
  marked : logged.1.world.states.MarkedAt (logged.2.flatMap (Call.writes source)) m

theorem Engine.last_deliverLogged {logged : Session K Note × List (Call K Note)} (h : logged.1.refreshed)
    (x : Emission (Listener K Note)) : Halt.last (Engine.deliverLogged source m.direction m.node m.ancestry logged x) =
      (⟨Halt.last (x.listener.run source m.direction m.node m.ancestry logged.1.world), true⟩,
        logged.2 ++ [⟨m, x, logged.1.world⟩]) := by
  unfold deliverLogged deliver Session.current
  simp only [h, if_true]
  cases x.listener.run source m.direction m.node m.ancestry logged.1.world <;> rfl

/-- A delivery makes a call whose points are all marked, and ends at one of them. -/
theorem Attending.deliver (hnodup : m.path.Nodup) {logged : Session K Note × List (Call K Note)}
    (h : Attending source past m logged) (x : Emission (Listener K Note)) :
    Attending source past m (Halt.last (Engine.deliverLogged source m.direction m.node m.ancestry logged x)) := by
  rw [Engine.last_deliverLogged h.refreshed]
  have hpoints : ∀ point ∈ (⟨m, x, logged.1.world⟩ : Call K Note).points source (logged.2.flatMap (Call.writes source)),
      point.2.states.MarkedAt point.1 m :=
    fun point hpoint => Script.points_marked _ _ hnodup rfl rfl h.marked hpoint
  have hwrites : (logged.2 ++ [(⟨m, x, logged.1.world⟩ : Call K Note)]).flatMap (Call.writes source) =
      logged.2.flatMap (Call.writes source) ++ (⟨m, x, logged.1.world⟩ : Call K Note).writes source := by simp
  refine ⟨rfl, h.log.concat source fun point hpoint => World.exact_of_markedAt hnodup (hpoints point hpoint),
    fun y hy => ?_, ?_⟩
  · rw [hwrites, List.mem_append] at hy
    rcases hy with hy | hy
    · exact h.past y hy
    · rw [Script.eq_of_mem_writes _ _ _ hy]
      exact List.mem_append_right _ List.mem_cons_self
  · rw [hwrites]
    exact hpoints _ (Script.end_mem_points _ _ _ _ _ _)

/-- The deliveries of a moment leave it so, whether they get through or not. -/
theorem Attending.deliverAll (index : SelectorIndex (Listener K Note)) (hnodup : m.path.Nodup)
    {logged : Session K Note × List (Call K Note)} (h : Attending source past m logged) :
    ∃ logged', Attending source past m logged' ∧
      Halt.last (m.deliverAll index source logged) = (logged'.1.world, logged'.2) := by
  unfold Moment.deliverAll
  cases index.emissions m.direction m.node m.ancestry with
  | error e => exact ⟨logged, h, rfl⟩
  | ok es =>
    have hlast := Halt.last_foldlM (P := Attending source past m) (fun _ x h => h.deliver hnodup x) es h
    refine ⟨_, hlast, ?_⟩
    dsimp only
    cases es.foldlM (Engine.deliverLogged source m.direction m.node m.ancestry) logged <;> rfl

namespace Trail

variable {state : World K Note × List (Call K Note)}

/-- A moment at which all marks are worked out first keeps the trail, whatever it delivers. -/
theorem attendFresh (index : SelectorIndex (Listener K Note)) (htidy : Moment.Tidy (past ++ m :: rest))
    (h : Trail source past (m :: rest) state) :
    Trail source (past ++ [m]) rest (Halt.last (m.attendFresh index source state)) := by
  have hnodup := htidy.nodup m (by simp)
  have hstart : Attending source past m (⟨state.1.refresh m.node m.ancestry, true⟩, state.2) :=
    ⟨rfl, h.log, fun x hx => List.mem_append_left _ (h.past x hx), h.tracked.refresh⟩
  obtain ⟨logged, hend, hlast⟩ := hstart.deliverAll index hnodup
  rw [Moment.attendFresh, hlast]
  exact ⟨hend.log, hend.past, hend.marked.tracked htidy hend.past, (World.exact_of_markedAt hnodup hend.marked).once⟩

/-- A moment that delivers nothing is passed. -/
theorem pass (h : Trail source past (m :: rest) state) : Trail source (past ++ [m]) rest state :=
  ⟨h.log, fun x hx => List.mem_append_left _ (h.past x hx), h.tracked.tail, h.once⟩

end Trail

theorem Moment.attend_eq_attendFresh {es : List (Emission (Listener K Note))} (hne : es ≠ [])
    (hes : index.emissions m.direction m.node m.ancestry = .ok es) (state : World K Note × List (Call K Note)) :
    m.attend index source state = m.attendFresh index source state := by
  unfold attend attendFresh deliverAll
  rw [hes]
  cases es with
  | nil => exact absurd rfl hne
  | cons x rest => rfl

theorem Trail.attend (index : SelectorIndex (Listener K Note)) {state : World K Note × List (Call K Note)}
    (htidy : Moment.Tidy (past ++ m :: rest)) (h : Trail source past (m :: rest) state) :
    Trail source (past ++ [m]) rest (Halt.last (m.attend index source state)) := by
  cases hes : index.emissions m.direction m.node m.ancestry with
  | error e =>
    rw [Moment.attend, Moment.deliverAll, hes]
    exact h.pass
  | ok es =>
    cases es with
    | nil =>
      rw [Moment.attend, Moment.deliverAll, hes]
      exact h.pass
    | cons x rest =>
      rw [Moment.attend_eq_attendFresh (List.cons_ne_nil _ _) hes]
      exact h.attendFresh index htidy

/-- A walk of tidy moments ends in a trail, whether it gets through or not. -/
theorem Trail.foldlM_attend (index : SelectorIndex (Listener K Note)) {ms : List Moment}
    {state : World K Note × List (Call K Note)} (htidy : Moment.Tidy (past ++ ms)) (h : Trail source past ms state) :
    ∃ past' rest', Trail source past' rest' (Halt.last (ms.foldlM (Moment.attend index source) state)) := by
  induction ms generalizing past state with
  | nil => exact ⟨past, [], h⟩
  | cons m rest ih =>
    have hm := h.attend index htidy
    cases hattend : m.attend index source state with
    | error halt =>
      rw [hattend] at hm
      rw [foldlM_cons_of_error rest hattend]
      exact ⟨past ++ [m], rest, hm⟩
    | ok next =>
      rw [hattend] at hm
      rw [foldlM_cons_of_ok rest hattend]
      exact ih (by simpa using htidy) hm

end Walk

/-! ## Marks worked out at every step -/

/-- An instance without its marks. -/
def RuleState.unmarked (s : RuleState K) : RuleState K :=
  .fresh s.value s.config

/-- A table without the marks of its instances. -/
def StateTable.unmarked (t : StateTable K) : StateTable K where
  shared := t.shared.map RuleState.unmarked
  groups := t.groups.map (·.map RuleState.unmarked)

/-- A table with the marks that some writes call for at a moment. -/
def StateTable.marked (writes : List Write) (m : Moment) (t : StateTable K) : StateTable K where
  shared := t.shared.mapEntries fun rule state => state.markedAt writes (.shared rule) m
  groups := t.groups.mapEntries fun group bucket =>
    bucket.mapEntries fun rule state => state.markedAt writes (.group rule group) m

/-- What a run gives without the marks of the instances it reports. -/
def Run.unmarked (r : Run K Note) : Run K Note :=
  { r with outcome := r.outcome.map fun report => { report with states := report.states.unmarked } }

/-- A world without marks, with its log. -/
def World.bare (state : World K Note × List (Call K Note)) : World K Note × List (Call K Note) :=
  ({ state.1 with states := state.1.states.unmarked }, state.2)

/-- The marks of tracked instances depend on nothing but the writes. -/
theorem StateTable.Tracked.refresh_eq {m : Moment} {rest : List Moment} {writes : List Write} {t : StateTable K}
    (h : Tracked (m :: rest) writes t) :
    t.refresh m.node.id (m.ancestry.map Tree.id) = t.unmarked.marked writes m := by
  refine congrArg₂ StateTable.mk ?_ ?_
  · simp only [unmarked, Dict.map, Dict.mapEntries_mapEntries]
    refine Dict.mapEntries_congr ?_
    intro rule state hfind
    exact h (.shared rule) state hfind m List.mem_cons_self
  · simp only [unmarked, Dict.map, Dict.mapEntries_mapEntries]
    refine Dict.mapEntries_congr ?_
    intro group bucket hbucket
    refine Dict.mapEntries_congr ?_
    intro rule state hfind
    have hstate : t.find? (.group rule group) = some state := by
      rw [find?_group, hbucket]
      exact hfind
    exact h (.group rule group) state hstate m List.mem_cons_self

theorem StateTable.unmarked_refresh (t : StateTable K) (node : NodeId) (ancestors : List NodeId) :
    (t.refresh node ancestors).unmarked = t.unmarked := by
  simp only [unmarked, refresh, Dict.map, Dict.mapEntries_mapEntries]
  rfl

theorem World.bare_refresh (w : World K Note) (calls : List (Call K Note)) (node : Tree) (ancestry : List Tree) :
    bare (w.refresh node ancestry, calls) = bare (w, calls) := by
  simp only [bare, World.refresh, StateTable.unmarked_refresh]

section Comparison

variable {index : SelectorIndex (Listener K Note)} {source : Source} {past rest : List Moment} {m : Moment}
  {lazy eager : World K Note × List (Call K Note)}

/-- Tracked worlds that differ in marks only have the same marks worked out. -/
theorem Trail.refresh_congr (hlazy : Trail source past (m :: rest) lazy) (heager : Trail source past (m :: rest) eager)
    (hsame : World.bare lazy = World.bare eager) :
    lazy.1.refresh m.node m.ancestry = eager.1.refresh m.node m.ancestry ∧ lazy.2 = eager.2 := by
  obtain ⟨⟨states, diagnostics, notes⟩, calls⟩ := lazy
  obtain ⟨⟨states', diagnostics', notes'⟩, calls'⟩ := eager
  simp only [World.bare, Prod.mk.injEq, World.mk.injEq] at hsame
  obtain ⟨⟨hstates, rfl, rfl⟩, rfl⟩ := hsame
  refine ⟨?_, rfl⟩
  simp only [World.refresh, hlazy.tracked.refresh_eq, heager.tracked.refresh_eq, hstates]

/-- One moment comes to the same whether marks are worked out where something is delivered or always. -/
theorem Trail.attend_bare (index : SelectorIndex (Listener K Note)) (hlazy : Trail source past (m :: rest) lazy)
    (heager : Trail source past (m :: rest) eager) (hsame : World.bare lazy = World.bare eager) :
    Halt.map World.bare (m.attend index source lazy) = Halt.map World.bare (m.attendFresh index source eager) := by
  obtain ⟨hrefresh, hlog⟩ := hlazy.refresh_congr heager hsame
  have hbare : World.bare lazy = World.bare (eager.1.refresh m.node m.ancestry, eager.2) := by
    rw [World.bare_refresh, hsame]
  cases hes : index.emissions m.direction m.node m.ancestry with
  | error e =>
    rw [Moment.attend, Moment.attendFresh, Moment.deliverAll, Moment.deliverAll, hes]
    exact congrArg (fun state => Except.error (Halt.mk state (EngineError.unmatchable e))) hbare
  | ok es =>
    cases es with
    | nil =>
      rw [Moment.attend, Moment.attendFresh, Moment.deliverAll, Moment.deliverAll, hes]
      exact congrArg Except.ok hbare
    | cons x after =>
      -- something is delivered, so both work out the marks, and they come out the same
      rw [Moment.attend_eq_attendFresh (List.cons_ne_nil _ _) hes, Moment.attendFresh, Moment.attendFresh, hrefresh, hlog]

/-- So does a walk. -/
theorem Trail.foldlM_bare (index : SelectorIndex (Listener K Note)) {ms : List Moment} (htidy : Moment.Tidy (past ++ ms))
    (hlazy : Trail source past ms lazy) (heager : Trail source past ms eager) (hsame : World.bare lazy = World.bare eager) :
    Halt.map World.bare (ms.foldlM (Moment.attend index source) lazy) =
      Halt.map World.bare (ms.foldlM (Moment.attendFresh index source) eager) := by
  induction ms generalizing past lazy eager with
  | nil => exact congrArg Except.ok hsame
  | cons m rest ih =>
    have hlazy' := hlazy.attend index htidy
    have heager' := heager.attendFresh index htidy
    have hstep := hlazy.attend_bare index heager hsame
    cases hl : m.attend index source lazy with
    | error halt =>
      cases he : m.attendFresh index source eager with
      | error halt' => rwa [foldlM_cons_of_error rest hl, foldlM_cons_of_error rest he, ← hl, ← he]
      | ok next' =>
        rw [hl, he] at hstep
        cases hstep
    | ok next =>
      cases he : m.attendFresh index source eager with
      | error halt' =>
        rw [hl, he] at hstep
        cases hstep
      | ok next' =>
        rw [hl] at hlazy' hstep
        rw [he] at heager' hstep
        rw [foldlM_cons_of_ok rest hl, foldlM_cons_of_ok rest he]
        exact ih (by simpa using htidy) hlazy' heager' (Except.ok.inj hstep)

end Comparison

/-- The record of a walk shows the marks of its last world in the reported instances and nowhere else. -/
theorem Record.ofWalk_bare (root : Tree)
    {walk walk' : Except (Halt (World K Note × List (Call K Note)) EngineError) (World K Note × List (Call K Note))}
    (h : Halt.map World.bare walk = Halt.map World.bare walk') :
    (ofWalk root walk).calls = (ofWalk root walk').calls ∧
      (ofWalk root walk).run.unmarked = (ofWalk root walk').run.unmarked := by
  have hcalls : ∀ walk : Except (Halt (World K Note × List (Call K Note)) EngineError) (World K Note × List (Call K Note)),
      (ofWalk root walk).calls = (ofWalk root (Halt.map World.bare walk)).calls ∧
        (ofWalk root walk).run.unmarked = (ofWalk root (Halt.map World.bare walk)).run := by
    intro walk
    cases walk <;> exact ⟨rfl, rfl⟩
  rw [(hcalls walk).1, (hcalls walk).2, (hcalls walk').1, (hcalls walk').2, h]
  exact ⟨rfl, rfl⟩

/-! ## Runs -/

variable {r : Registry K Note} {groups : List Group} {c : Config} {cache : PatternCache}

/-- An engine starts on a trail. -/
theorem Engine.trail_start {e : Engine K Note} (h : (Engine.setupWith cache r groups c).outcome = .ok e) (source : Source)
    (ms : List Moment) : Trail source [] ms (({ states := e.states } : World K Note), []) where
  log before call after heq := by simp at heq
  past := nofun
  tracked := StateTable.tracked_nil fun _ _ hfind => Engine.never_written h hfind
  once tag s hfind := by
    rw [Engine.never_written h hfind]
    exact List.nodup_nil

/-- Marks are exact in every run over nodes that can be told apart. At every point of every call, an instance's mark for the
visited node is that of the latest write made there so far, its mark for ancestors says whether it was written on the way into
one of them, and its history holds no node twice. A run that works out the marks at every step makes the same calls, finds
the same worlds in them and ends with the same report but for marks. -/
theorem Engine.marks_exact {e : Engine K Note} (h : (Engine.setupWith cache r groups c).outcome = .ok e) {root : Tree}
    (hroot : (root.nodes.map Tree.id).Nodup) (source : Source) :
    (e.record root source).run = e.run root source ∧
    (∀ before call after, (e.record root source).calls = before ++ call :: after →
      ∀ point ∈ call.points source (before.flatMap (Call.writes source)), point.2.Exact point.1 call.moment) ∧
    (e.recordFresh root source).calls = (e.record root source).calls ∧
    (e.recordFresh root source).run.unmarked = (e.run root source).unmarked ∧
    ∀ report, (e.run root source).outcome = .ok report →
      ∀ tag s, report.states.find? tag = some s → (s.history.map Prod.fst).Nodup := by
  have htidy : Moment.Tidy ([] ++ root.moments []) := Tree.tidy_moments hroot
  have hstart := e.trail_start h source (root.moments [])
  obtain ⟨past, rest, htrail⟩ := hstart.foldlM_attend e.index htidy
  rw [← e.walk_eq] at htrail
  have hbare := hstart.foldlM_bare e.index htidy hstart rfl
  rw [← e.walk_eq, ← Tree.visit_eq] at hbare
  obtain ⟨hcalls, hrun⟩ := Record.ofWalk_bare root hbare
  rw [← e.record_eq] at hcalls hrun
  refine ⟨e.run_record root source, ?_, hcalls.symm, ?_, ?_⟩
  · have hlog : (e.record root source).calls = (Halt.last (e.walk root source)).2 := by
      rw [e.record_eq]
      cases e.walk root source <;> rfl
    rw [hlog]
    exact htrail.log
  · rw [← e.run_record]
    exact hrun.symm
  · intro report hreport
    rw [← e.run_record, e.record_eq] at hreport
    cases hwalk : e.walk root source with
    | error halt =>
      rw [hwalk] at hreport
      cases hreport
    | ok state =>
      rw [hwalk] at hreport htrail
      cases hreport
      exact htrail.once

/-- Three rules that write at a node and at both its children. -/
theorem Engine.marks_exact_counting : ∃ e : Engine PlainKind Unit,
    (setupWith .empty Registry.counting [⟨"g", ["asking", "apart", "count"]⟩] {}).outcome = .ok e ∧
    (e.record (.node { name := "n", assigned := some 0 } [.node { name := "n", assigned := some 1 } [],
      .node { name := "n", assigned := some 2 } []]) (.ofText "")).calls.length = 9 ∧
    (∀ before call after, (e.record (.node { name := "n", assigned := some 0 } [.node { name := "n", assigned := some 1 } [],
      .node { name := "n", assigned := some 2 } []]) (.ofText "")).calls = before ++ call :: after →
      ∀ point ∈ call.points (.ofText "") (before.flatMap (Call.writes (.ofText ""))), point.2.Exact point.1 call.moment) := by
  have hcalls : ((setupWith .empty Registry.counting [⟨"g", ["asking", "apart", "count"]⟩] {}).outcome.toOption.map fun e =>
      (e.record (.node { name := "n", assigned := some 0 } [.node { name := "n", assigned := some 1 } [],
        .node { name := "n", assigned := some 2 } []]) (.ofText "")).calls.length) = some 9 := by
    cbv
  obtain ⟨e, hsetup, hlength⟩ := Option.map_eq_some_iff.1 hcalls
  have hids : ((Tree.node { name := "n", assigned := some 0 } [.node { name := "n", assigned := some 1 } [],
      .node { name := "n", assigned := some 2 } []]).nodes.map Tree.id).Nodup := by decide
  have hexact := Engine.marks_exact (eq_ok_of_toOption hsetup) hids (.ofText "")
  exact ⟨e, eq_ok_of_toOption hsetup, hlength, hexact.2.1⟩

end RuleWalk
