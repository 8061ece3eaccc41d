import RuleWalk.Proofs.World

/-!
# The state table is a flat map

A table keeps shared instances by rule and private ones by group and rule. A flat map keeps all of them by tag. Whatever is done
to the two, one operation after the other, they give the same answers and end with the same instances: the look-ups of the table
are those of the map, which is kept by every operation. A map for a group that holds nothing is not seen. Factories act on a
world of their own, which shows how often they have run.
-/

namespace RuleWalk

/-! ## Machines that answer -/

section Serving

variable {σ τ α β : Type}

/-- Serves requests one after the other: the answers, and the state at the end. -/
def serve (step : σ → α → β × σ) (start : σ) (requests : List α) : List β × σ :=
  requests.foldl (fun served request => (served.1 ++ [(step served.2 request).1], (step served.2 request).2)) ([], start)

variable {step : σ → α → β × σ} {step' : τ → α → β × τ} {start : σ} {start' : τ}

/-- The last request is answered in the state that the others have led to. -/
theorem serve_concat (step : σ → α → β × σ) (start : σ) (requests : List α) (request : α) :
    serve step start (requests ++ [request]) =
      ((serve step start requests).1 ++ [(step (serve step start requests).2 request).1],
        (step (serve step start requests).2 request).2) := by
  simp [serve]

/-- Two machines that answer alike in related states, and stay in related states, cannot be told apart. -/
theorem serve_simulates {R : σ → τ → Prop}
    (hstep : ∀ s s' request, R s s' → (step s request).1 = (step' s' request).1 ∧ R (step s request).2 (step' s' request).2)
    (hstart : R start start') (requests : List α) : (serve step start requests).1 = (serve step' start' requests).1 ∧
      R (serve step start requests).2 (serve step' start' requests).2 := by
  induction requests using List.reverseRecOn with
  | nil => exact ⟨rfl, hstart⟩
  | append_singleton requests request ih =>
    obtain ⟨hanswers, hrelated⟩ := ih
    obtain ⟨hanswer, hnext⟩ := hstep _ _ request hrelated
    rw [serve_concat, serve_concat, hanswers, hanswer]
    exact ⟨rfl, hnext⟩

end Serving

variable {K : Type} [Kinds K] {σ : Type}

/-! ## Operations -/

/-- What can be done to the instances: a shared or a private one is initialised, a value is replaced by a reducer, and marks are
worked out. -/
inductive StateOp (K : Type) [Kinds K] (σ : Type) where
  | initShared (rule : String) (config : Json) (make : StateM σ (StateValue K)) (ignoreDuplicate : Bool)
  | initPrivate (rule group : String) (config : Json) (make : StateM σ (StateValue K)) (ignoreDuplicate : Bool)
  | update (tag : StateTag) (k : K) (f : Carrier k → Carrier k) (node : NodeId) (visit : Visit)
  | refresh (node : NodeId) (ancestors : List NodeId)

/-- What an operation answers: the tag that was initialised, nothing, or what went wrong. -/
abbrev StateAnswer := Except StateError (Option StateTag)

/-- An initialisation, whichever scope it is for. -/
structure StateInit (K : Type) [Kinds K] (σ : Type) where
  tag : StateTag
  config : Json
  make : StateM σ (StateValue K)
  ignoreDuplicate : Bool

namespace StateOp

/-- The initialisation that an operation is. -/
def init? : StateOp K σ → Option (StateInit K σ)
  | .initShared rule config make ignoreDuplicate => some ⟨.shared rule, config, make, ignoreDuplicate⟩
  | .initPrivate rule group config make ignoreDuplicate => some ⟨.group rule group, config, make, ignoreDuplicate⟩
  | _ => none

/-- The tags that some operations initialise, in order. -/
def inits (ops : List (StateOp K σ)) : List StateTag :=
  ops.filterMap fun op => op.init?.map StateInit.tag

theorem inits_concat (ops : List (StateOp K σ)) (op : StateOp K σ) :
    inits (ops ++ [op]) = inits ops ++ (op.init?.map StateInit.tag).toList := by
  rw [inits, List.filterMap_append]
  cases hinit : op.init? <;> simp [hinit, inits]

end StateOp

open StateOp

/-- Does something to a table, in a world on which factories act. -/
def StateTable.step (state : StateTable K × σ) : StateOp K σ → StateAnswer × StateTable K × σ
  | .initShared rule config make ignoreDuplicate =>
    let ((answer, t), world) := (state.1.initShared rule config make ignoreDuplicate).run state.2
    (answer.map some, t, world)
  | .initPrivate rule group config make ignoreDuplicate =>
    let ((answer, t), world) := (state.1.initPrivate rule group config make ignoreDuplicate).run state.2
    (answer.map some, t, world)
  | .update tag k f node visit =>
    let (answer, t) := state.1.update tag k f node visit
    (answer.map fun _ => none, t, state.2)
  | .refresh node ancestors => (.ok none, state.1.refresh node ancestors, state.2)

/-- Does some operations to an empty table: the answers, the table at the end and the world of factories. -/
def StateTable.run (world : σ) (ops : List (StateOp K σ)) : List StateAnswer × StateTable K × σ :=
  serve step (.empty, world) ops

/-! ## The flat map -/

/-- All instances by their tags. -/
abbrev FlatMap (K : Type) [Kinds K] := Dict StateTag (RuleState K)

namespace FlatMap

/-- Makes the instance of a tag that has none. -/
def init (d : FlatMap K) (i : StateInit K σ) (world : σ) : StateAnswer × FlatMap K × σ :=
  if d.contains i.tag then
    (if i.ignoreDuplicate then .ok (some i.tag) else .error (.duplicate i.tag), d, world)
  else
    (.ok (some i.tag), d.insert i.tag (.fresh (i.make.run world).1 i.config), (i.make.run world).2)

/-- Replaces the instance of a tag by what a write makes of it. -/
def update (d : FlatMap K) (tag : StateTag) (k : K) (f : Carrier k → Carrier k) (node : NodeId) (visit : Visit) :
    StateAnswer × FlatMap K :=
  match d.find? tag with
  | none => (.error (.missing tag), d)
  | some state =>
    match state.update? k f node visit with
    | none => (.error (.otherKind tag (Kinds.typeName k)), d)
    | some state => (.ok none, d.insert tag state)

/-- Does something to a map, in a world on which factories act. -/
def step (state : FlatMap K × σ) : StateOp K σ → StateAnswer × FlatMap K × σ
  | .initShared rule config make ignoreDuplicate => init state.1 ⟨.shared rule, config, make, ignoreDuplicate⟩ state.2
  | .initPrivate rule group config make ignoreDuplicate =>
    init state.1 ⟨.group rule group, config, make, ignoreDuplicate⟩ state.2
  | .update tag k f node visit =>
    let (answer, d) := update state.1 tag k f node visit
    (answer, d, state.2)
  | .refresh node ancestors => (.ok none, state.1.map (·.refresh node ancestors), state.2)

/-- Does some operations to an empty map. -/
def run (world : σ) (ops : List (StateOp K σ)) : List StateAnswer × FlatMap K × σ :=
  serve step (.empty, world) ops

theorem step_init {op : StateOp K σ} {i : StateInit K σ} (h : op.init? = some i) (state : FlatMap K × σ) :
    step state op = init state.1 i state.2 := by
  cases op with
  | initShared rule config make ignoreDuplicate | initPrivate rule group config make ignoreDuplicate =>
    cases h
    rfl
  | update tag k f node visit | refresh node ancestors => cases h

/-- Only an initialisation changes the tags: one that is new is put at the end. -/
theorem keys_step (state : FlatMap K × σ) (op : StateOp K σ) : (step state op).2.1.keys =
    match op.init? with
    | some i => if i.tag ∈ state.1.keys then state.1.keys else state.1.keys ++ [i.tag]
    | none => state.1.keys := by
  cases hinit : op.init? with
  | some i =>
    dsimp only
    rw [step_init hinit, init]
    by_cases hold : state.1.contains i.tag
    · rw [if_pos hold, if_pos (Dict.contains_iff.1 hold)]
    · rw [if_neg hold]
      exact Dict.keys_insert state.1 i.tag _
  | none =>
    cases op with
    | initShared rule config make ignoreDuplicate | initPrivate rule group config make ignoreDuplicate => cases hinit
    | update tag k f node visit =>
      dsimp only [step, update]
      cases hfind : state.1.find? tag with
      | none => rfl
      | some s =>
        have hkey : tag ∈ state.1.keys := Dict.contains_iff.1 (by rw [Dict.contains, hfind]; rfl)
        dsimp only
        cases s.update? k f node visit with
        | none => rfl
        | some s' => rw [Dict.keys_insert, if_pos hkey]
    | refresh node ancestors => exact Dict.keys_mapEntries _ state.1

/-- The tags of the map are those that have been initialised, in the order in which that first happened. -/
theorem keys_run (world : σ) (ops : List (StateOp K σ)) : (run world ops).2.1.keys = (inits ops).eraseDups := by
  induction ops using List.reverseRecOn with
  | nil => rfl
  | append_singleton ops op ih =>
    have hserved : (run world (ops ++ [op])).2 = (step (run world ops).2 op).2 := congrArg Prod.snd (serve_concat ..)
    rw [hserved, keys_step, ih, inits_concat]
    cases op.init? with
    | none => simp
    | some i =>
      rw [Option.map_some, Option.toList_some, eraseDups_concat]
      simp only [List.mem_eraseDups]

end FlatMap

/-! ## The simulation -/

namespace StateTable

/-- A table and a map have the same instances. -/
def Sees (t : StateTable K) (d : FlatMap K) : Prop :=
  ∀ tag, t.find? tag = d.find? tag

theorem Sees.contains {t : StateTable K} {d : FlatMap K} (h : t.Sees d) (tag : StateTag) : t.contains tag = d.contains tag := by
  rw [StateTable.contains, Dict.contains, h tag]

/-- They have the same tags, in whatever order: neither lists one twice. -/
theorem Sees.perm_tags {t : StateTable K} {d : FlatMap K} (h : t.Sees d) : t.tags.Perm d.keys := by
  refine (List.perm_ext_iff_of_nodup t.nodup_tags d.distinct).2 fun tag => ?_
  rw [mem_tags_iff, h.contains]
  exact Dict.contains_iff

theorem Sees.size {t : StateTable K} {d : FlatMap K} (h : t.Sees d) : t.size = d.size := by
  have hlength := h.perm_tags.length_eq
  rwa [length_tags, Dict.keys, List.length_map] at hlength

/-- What an initialisation comes to: an instance where there was none. -/
def initialised (t : StateTable K) (i : StateInit K σ) (world : σ) : (Except StateError StateTag × StateTable K) × σ :=
  if t.contains i.tag then ((duplicate i.tag i.ignoreDuplicate, t), world)
  else ((.ok i.tag, t.withNew i.tag (.fresh (i.make.run world).1 i.config)), (i.make.run world).2)

/-- A factory that acts on a world runs where there is no instance, and nowhere else. -/
theorem run_initialised (t : StateTable K) (i : StateInit K σ) (world : σ) :
    StateT.run (m := Id) (if t.contains i.tag then pure (duplicate i.tag i.ignoreDuplicate, t)
      else i.make >>= fun value => pure (.ok i.tag, t.withNew i.tag (.fresh value i.config))) world =
      t.initialised i world := by
  unfold initialised
  by_cases h : t.contains i.tag
  · rw [if_pos h, if_pos h]
    rfl
  · rw [if_neg h, if_neg h]
    rfl

theorem run_initShared (t : StateTable K) (rule : String) (config : Json) (make : StateM σ (StateValue K))
    (ignoreDuplicate : Bool) (world : σ) : (t.initShared rule config make ignoreDuplicate).run world =
      t.initialised ⟨.shared rule, config, make, ignoreDuplicate⟩ world := by
  rw [initShared_eq]
  exact t.run_initialised ⟨.shared rule, config, make, ignoreDuplicate⟩ world

theorem run_initPrivate (t : StateTable K) (rule group : String) (config : Json) (make : StateM σ (StateValue K))
    (ignoreDuplicate : Bool) (world : σ) : (t.initPrivate rule group config make ignoreDuplicate).run world =
      t.initialised ⟨.group rule group, config, make, ignoreDuplicate⟩ world := by
  rw [initPrivate_eq]
  exact t.run_initialised ⟨.group rule group, config, make, ignoreDuplicate⟩ world

/-- The two initialisations differ in the tag they are for and in nothing else. -/
theorem step_init {op : StateOp K σ} {i : StateInit K σ} (h : op.init? = some i) (state : StateTable K × σ) :
    step state op = ((state.1.initialised i state.2).1.1.map some, (state.1.initialised i state.2).1.2,
      (state.1.initialised i state.2).2) := by
  cases op with
  | initShared rule config make ignoreDuplicate =>
    cases h
    rw [step, run_initShared]
  | initPrivate rule group config make ignoreDuplicate =>
    cases h
    rw [step, run_initPrivate]
  | update tag k f node visit | refresh node ancestors => cases h

/-- An initialisation is answered alike and makes the same instance of what the same factory makes. -/
theorem Sees.init {t : StateTable K} {d : FlatMap K} (h : t.Sees d) (i : StateInit K σ) (world : σ) :
    (t.initialised i world).1.1.map some = (FlatMap.init d i world).1 ∧
      (t.initialised i world).1.2.Sees (FlatMap.init d i world).2.1 ∧
      (t.initialised i world).2 = (FlatMap.init d i world).2.2 := by
  rw [initialised, FlatMap.init, ← h.contains]
  by_cases hold : t.contains i.tag
  · rw [if_pos hold, if_pos hold]
    refine ⟨?_, h, rfl⟩
    cases i.ignoreDuplicate <;> rfl
  · rw [if_neg hold, if_neg hold]
    refine ⟨rfl, fun tag => ?_, rfl⟩
    dsimp only
    rw [find?_withNew, Dict.find?_insert, h tag]

/-- A write is answered alike and replaces the same instance. -/
theorem Sees.update {t : StateTable K} {d : FlatMap K} (h : t.Sees d) (tag : StateTag) (k : K) (f : Carrier k → Carrier k)
    (node : NodeId) (visit : Visit) :
    (t.update tag k f node visit).1.map (fun _ => none) = (FlatMap.update d tag k f node visit).1 ∧
      (t.update tag k f node visit).2.Sees (FlatMap.update d tag k f node visit).2 := by
  rw [update_eq, updated, FlatMap.update, ← h tag]
  cases hfind : t.find? tag with
  | none => exact ⟨rfl, h⟩
  | some state =>
    dsimp only
    cases state.update? k f node visit with
    | none => exact ⟨rfl, h⟩
    | some state' =>
      refine ⟨rfl, fun other => ?_⟩
      rw [find?_replace, Dict.find?_insert, hfind, h other]
      rfl

theorem Sees.refresh {t : StateTable K} {d : FlatMap K} (h : t.Sees d) (node : NodeId) (ancestors : List NodeId) :
    (t.refresh node ancestors).Sees (d.map (·.refresh node ancestors)) := by
  intro tag
  rw [find?_refresh, Dict.find?_map, h tag]

/-- One operation is answered alike by table and map, and they keep the same instances. -/
theorem Sees.step {state : StateTable K × σ} {state' : FlatMap K × σ} (h : state.1.Sees state'.1) (hworld : state.2 = state'.2)
    (op : StateOp K σ) : (step state op).1 = (FlatMap.step state' op).1 ∧
      (step state op).2.1.Sees (FlatMap.step state' op).2.1 ∧ (step state op).2.2 = (FlatMap.step state' op).2.2 := by
  obtain ⟨t, world⟩ := state
  obtain ⟨d, world'⟩ := state'
  cases hworld
  cases hinit : op.init? with
  | some i =>
    rw [step_init hinit, FlatMap.step_init hinit]
    exact h.init i world
  | none =>
    cases op with
    | initShared rule config make ignoreDuplicate | initPrivate rule group config make ignoreDuplicate => cases hinit
    | update tag k f node visit =>
      obtain ⟨hanswer, hsees⟩ := h.update tag k f node visit
      exact ⟨hanswer, hsees, rfl⟩
    | refresh node ancestors => exact ⟨rfl, h.refresh node ancestors, rfl⟩

/-- So is every sequence of operations. -/
theorem run_simulates (world : σ) (ops : List (StateOp K σ)) : (run world ops).1 = (FlatMap.run world ops).1 ∧
    (run world ops).2.1.Sees (FlatMap.run world ops).2.1 ∧ (run world ops).2.2 = (FlatMap.run world ops).2.2 := by
  refine serve_simulates (R := fun (s : StateTable K × σ) (s' : FlatMap K × σ) => s.1.Sees s'.1 ∧ s.2 = s'.2) ?_ ?_ ops
  · intro s s' op h
    exact h.1.step h.2 op
  · exact ⟨fun tag => (find?_empty tag).trans (Dict.find?_empty tag).symm, rfl⟩

/-- After any operations the tags with an instance are those that have been initialised. -/
theorem contains_run (world : σ) (ops : List (StateOp K σ)) (tag : StateTag) :
    (run world ops).2.1.contains tag ↔ tag ∈ inits ops := by
  rw [(run_simulates world ops).2.1.contains, Dict.contains_iff, FlatMap.keys_run, List.mem_eraseDups]

/-! ## Configurations stay -/

/-- An instance stays under every operation, with the configuration it was made with. -/
theorem config_step {state : StateTable K × σ} {tag : StateTag} {s : RuleState K} (h : state.1.find? tag = some s)
    (op : StateOp K σ) : ∃ s', (step state op).2.1.find? tag = some s' ∧ s'.config = s.config := by
  cases hinit : op.init? with
  | some i =>
    rw [step_init hinit, initialised]
    by_cases hold : state.1.contains i.tag
    · rw [if_pos hold]
      exact ⟨s, h, rfl⟩
    · have hne : tag ≠ i.tag := by
        rintro rfl
        exact hold (by rw [contains, h]; rfl)
      rw [if_neg hold]
      exact ⟨s, by rw [find?_withNew, if_neg hne, h], rfl⟩
  | none =>
    cases op with
    | initShared rule config make ignoreDuplicate | initPrivate rule group config make ignoreDuplicate => cases hinit
    | update other k f node visit =>
      dsimp only [step]
      rw [update_eq]
      cases hup : state.1.updated other k f node visit with
      | error e => exact ⟨s, h, rfl⟩
      | ok t' =>
        obtain ⟨old, new, hold, hnew, hall⟩ := find?_updated hup
        dsimp only
        rw [hall]
        by_cases heq : tag = other
        · subst heq
          cases h.symm.trans hold
          exact ⟨new, if_pos rfl, RuleState.config_update? hnew⟩
        · exact ⟨s, by rw [if_neg heq, h], rfl⟩
    | refresh node ancestors =>
      exact ⟨s.refresh node ancestors, by rw [step, find?_refresh, h]; rfl, rfl⟩

/-- An instance stays under any further operations, with its configuration. -/
theorem config_run {world : σ} {ops : List (StateOp K σ)} {tag : StateTag} {s : RuleState K}
    (h : (run world ops).2.1.find? tag = some s) (more : List (StateOp K σ)) :
    ∃ s', (run world (ops ++ more)).2.1.find? tag = some s' ∧ s'.config = s.config := by
  induction more using List.reverseRecOn with
  | nil => exact ⟨s, by rwa [List.append_nil], rfl⟩
  | append_singleton more op ih =>
    obtain ⟨s', hfind, hconfig⟩ := ih
    obtain ⟨s'', hfind', hconfig'⟩ := config_step hfind op
    refine ⟨s'', ?_, hconfig'.trans hconfig⟩
    rw [← List.append_assoc, run, serve_concat]
    exact hfind'

/-! ## The table after any operations -/

/-- What an initialisation has to come to. Where the tag is known, it is answered with the tag or refused; no factory runs, and
nothing changes. Where it is new, it is answered with the tag and the factory runs once; what it makes is the value of a new
instance that was never written, and no other instance changes. -/
structure Initialises (t : StateTable K) (i : StateInit K σ) (now : σ) (known : Prop)
    (result : (Except StateError StateTag × StateTable K) × σ) : Prop where
  again : known → result = ((if i.ignoreDuplicate then .ok i.tag else .error (.duplicate i.tag), t), now)
  answer : ¬known → result.1.1 = .ok i.tag
  once : ¬known → result.2 = (i.make.run now).2
  fresh : ¬known → ∃ s, result.1.2.find? i.tag = some s ∧ s.value = (i.make.run now).1 ∧ s.config = i.config ∧
    s.current = .stale ∧ s.ancestor = .stale ∧ s.history = []
  others : ¬known → ∀ other, other ≠ i.tag → result.1.2.find? other = t.find? other

/-- A table initialises as it should, if it is known which tags it has. -/
theorem initialises {t : StateTable K} {i : StateInit K σ} {known : Prop} (h : t.contains i.tag ↔ known) (now : σ) :
    t.Initialises i now known (t.initialised i now) := by
  unfold initialised
  by_cases hknown : known
  · rw [if_pos (h.2 hknown)]
    exact ⟨fun _ => rfl, absurd hknown, absurd hknown, absurd hknown, absurd hknown⟩
  · rw [if_neg (mt h.1 hknown)]
    refine ⟨fun hk => absurd hk hknown, fun _ => rfl, fun _ => rfl, fun _ => ?_, fun _ other hne => ?_⟩
    · exact ⟨_, by rw [find?_withNew, if_pos rfl], rfl, rfl, rfl, rfl, rfl⟩
    · rw [find?_withNew, if_neg hne]

/-- A reducer for another kind is refused, and the table is as it was to the last mark. -/
theorem update_of_other_kind {t : StateTable K} {tag : StateTag} {s : RuleState K} (hfind : t.find? tag = some s) {k : K}
    (hkind : s.value.as? k = none) (f : Carrier k → Carrier k) (node : NodeId) (visit : Visit) :
    t.update tag k f node visit = (.error (.otherKind tag (Kinds.typeName k)), t) := by
  have hnone : s.update? k f node visit = none := by rw [RuleState.update?, hkind, Option.map_none]
  rw [update_eq, updated, hfind]
  dsimp only
  rw [hnone]

/-- A write changes no other instance, whether it is made or refused. -/
theorem find?_update_of_ne (t : StateTable K) (tag : StateTag) (k : K) (f : Carrier k → Carrier k) (node : NodeId)
    (visit : Visit) {other : StateTag} (hne : other ≠ tag) : (t.update tag k f node visit).2.find? other = t.find? other := by
  rw [update_eq]
  cases hup : t.updated tag k f node visit with
  | error e => rfl
  | ok t' =>
    obtain ⟨_, _, _, _, hall⟩ := find?_updated hup
    exact (hall other).trans (if_neg hne)

/-- The state table refines a flat map from tags. After any sequence of operations a flat map has given the same answers, holds
the same instances, as many of them, and its factories have done the same. There is one instance for each tag, and it is found
exactly if the tag has been initialised. A further initialisation, shared or private, makes an instance just if its tag is new.
A reducer changes no instance but the one it is applied to, and nothing at all if that is of another kind. Configurations stay.
The size is the number of tags that have been initialised, and a group reads a rule by its own tag if that has been
initialised, and else by the shared one if that has. -/
theorem refines_flatMap {world now : σ} {ops : List (StateOp K σ)} {answers : List StateAnswer} {t : StateTable K}
    (h : run world ops = (answers, t, now)) :
    (∃ d : FlatMap K, FlatMap.run world ops = (answers, d, now) ∧ (∀ tag, t.find? tag = d.find? tag) ∧ t.size = d.size) ∧
    t.tags.Nodup ∧
    (∀ tag, (∃ s, t.get tag = .ok s) ↔ tag ∈ inits ops) ∧
    (∀ rule config (make : StateM σ (StateValue K)) ignoreDuplicate,
      t.Initialises ⟨.shared rule, config, make, ignoreDuplicate⟩ now (.shared rule ∈ inits ops)
        ((t.initShared rule config make ignoreDuplicate).run now)) ∧
    (∀ rule group config (make : StateM σ (StateValue K)) ignoreDuplicate,
      t.Initialises ⟨.group rule group, config, make, ignoreDuplicate⟩ now (.group rule group ∈ inits ops)
        ((t.initPrivate rule group config make ignoreDuplicate).run now)) ∧
    (∀ tag k f node visit,
      (∀ other, other ≠ tag → (t.update tag k f node visit).2.find? other = t.find? other) ∧
      (t.find? tag = none → t.update tag k f node visit = (.error (.missing tag), t)) ∧
      ∀ s, t.find? tag = some s → s.value.as? k = none →
        t.update tag k f node visit = (.error (.otherKind tag (Kinds.typeName k)), t)) ∧
    (∀ tag s, t.find? tag = some s → ∀ more, ∃ s',
      (run world (ops ++ more)).2.1.find? tag = some s' ∧ s'.config = s.config) ∧
    t.size = (inits ops).eraseDups.length ∧
    ∀ rule group, t.tagFor? rule group =
      if .group rule group ∈ inits ops then some (.group rule group)
      else if .shared rule ∈ inits ops then some (.shared rule) else none := by
  obtain ⟨hanswers, hsees, hworld⟩ := run_simulates world ops
  rw [h] at hanswers hsees hworld
  have hcontains : ∀ tag, t.contains tag ↔ tag ∈ inits ops := by
    intro tag
    rw [← contains_run world, h]
  refine ⟨⟨(FlatMap.run world ops).2.1, ?_, hsees, hsees.size⟩, t.nodup_tags, ?_, ?_, ?_, ?_, ?_, ?_, ?_⟩
  · exact Prod.ext hanswers.symm (Prod.ext rfl hworld.symm)
  · intro tag
    rw [← hcontains, contains, get]
    cases t.find? tag <;> simp
  · intro rule config make ignoreDuplicate
    rw [run_initShared]
    exact initialises (hcontains (.shared rule)) now
  · intro rule group config make ignoreDuplicate
    rw [run_initPrivate]
    exact initialises (hcontains (.group rule group)) now
  · intro tag k f node visit
    refine ⟨fun other hne => t.find?_update_of_ne tag k f node visit hne, fun hnone => ?_, fun s hfind hkind => ?_⟩
    · rw [update, hnone]
    · exact update_of_other_kind hfind hkind f node visit
  · intro tag s hfind more
    exact config_run (by rw [h, hfind]) more
  · rw [hsees.size, ← FlatMap.keys_run world, Dict.size, Dict.keys, List.length_map]
  · intro rule group
    simp only [tagFor?_eq, hcontains]

/-- The factory that gives its own number in the order of runs. -/
def numbered : StateM Nat (StateValue PlainKind) := fun runs => (⟨.int, (runs : Int)⟩, runs + 1)

/-- A shared instance is made, written, initialised again and written as a text. For a group an instance of another rule is made
first, and then one of the same rule, twice. -/
def numberedOps : List (StateOp PlainKind Nat) :=
  [.initShared "count" .null numbered true,
    .update (.shared "count") .int (fun (n : Int) => n + 5) (.intrinsic 3) .onEntry,
    .initShared "count" .null numbered true,
    .update (.shared "count") .text (fun (text : String) => text ++ "!") (.intrinsic 3) .onExit,
    .initPrivate "other" "g" .null numbered false,
    .initPrivate "count" "g" .null numbered false,
    .initPrivate "count" "g" .null numbered false]

/-- The factory runs three times, the fourth and the last operation are refused, and asking for either instance once more is
too. -/
theorem refines_flatMap_numbered : ∃ t : StateTable PlainKind,
    run 0 numberedOps = ([.ok (some (.shared "count")), .ok none, .ok (some (.shared "count")),
      .error (.otherKind (.shared "count") "alloc::string::String"), .ok (some (.group "other" "g")),
      .ok (some (.group "count" "g")), .error (.duplicate (.group "count" "g"))], t, 3) ∧
    t.tags.Nodup ∧ t.size = 3 ∧
    t.tagFor? "count" "g" = some (.group "count" "g") ∧ t.tagFor? "count" "h" = some (.shared "count") ∧
    (t.initShared "count" .null numbered false).run 3 = ((.error (.duplicate (.shared "count")), t), 3) ∧
    (t.initPrivate "count" "g" .null numbered true).run 3 = ((.ok (.group "count" "g"), t), 3) := by
  have hrun : run 0 numberedOps = ((run 0 numberedOps).1, (run 0 numberedOps).2.1, 3) := by
    refine Prod.ext rfl (Prod.ext rfl ?_)
    decide
  have hanswers : (run 0 numberedOps).1 = [.ok (some (.shared "count")), .ok none, .ok (some (.shared "count")),
      .error (.otherKind (.shared "count") "alloc::string::String"), .ok (some (.group "other" "g")),
      .ok (some (.group "count" "g")), .error (.duplicate (.group "count" "g"))] := by
    decide
  obtain ⟨-, hnodup, -, hshared, hprivate, -, -, hsize, htag⟩ := refines_flatMap hrun
  rw [hanswers] at hrun
  exact ⟨_, hrun, hnodup, hsize.trans (by decide), (htag "count" "g").trans (by decide), (htag "count" "h").trans (by decide),
    (hshared "count" .null numbered false).again (by decide), (hprivate "count" "g" .null numbered true).again (by decide)⟩

end StateTable

end RuleWalk
