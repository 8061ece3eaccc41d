import RuleWalk.Proofs.Lists
import RuleWalk.State.Table

/-!
# Look-ups in a state table

A state table keeps the shared instances in one map and the private ones in a map of maps. Seen by tags it is one map: what each
of its operations does is told by the look-ups after it. A write that is refused puts back what it has taken out, so it changes
nothing.
-/

namespace RuleWalk

variable {K : Type} [Kinds K]

/-! ## Writing an instance -/

namespace RuleState

/-- An instance after a write of the given kind; one of another kind is not written. -/
def update? (s : RuleState K) (k : K) (f : Carrier k → Carrier k) (node : NodeId) (visit : Visit) : Option (RuleState K) :=
  (s.value.as? k).map fun old =>
    { s with value := ⟨k, f old⟩, current := visit, history := recordWrite node visit s.history }

/-- A reducer is applied, or what was taken out is put back. -/
theorem apply_eq (s : RuleState K) (k : K) (f : Carrier k → Carrier k) (node : NodeId) (visit : Visit) :
    s.apply k f node visit =
      match s.update? k f node visit with
      | some s' => (true, s')
      | none => (false, s) := by
  unfold apply update?
  dsimp only
  cases s.value.as? k <;> rfl

theorem history_update? {s s' : RuleState K} {k : K} {f : Carrier k → Carrier k} {node : NodeId} {visit : Visit}
    (h : s.update? k f node visit = some s') : s'.history = recordWrite node visit s.history := by
  obtain ⟨old, -, rfl⟩ := Option.map_eq_some_iff.1 h
  rfl

/-- A write leaves the configuration. -/
theorem config_update? {s s' : RuleState K} {k : K} {f : Carrier k → Carrier k} {node : NodeId} {visit : Visit}
    (h : s.update? k f node visit = some s') : s'.config = s.config := by
  obtain ⟨old, -, rfl⟩ := Option.map_eq_some_iff.1 h
  rfl

/-- A write is recorded under its node, and earlier records are of nodes that were there before. -/
theorem mem_recordWrite {node : NodeId} {visit : Visit} {history : List (NodeId × Visit)} {entry : NodeId × Visit}
    (h : entry ∈ recordWrite node visit history) : entry.1 = node ∨ entry ∈ history := by
  unfold recordWrite at h
  split at h
  · exact Or.inl (congrArg Prod.fst (List.mem_singleton.1 h))
  · split at h
    · rcases List.mem_cons.1 h with rfl | h
      · exact Or.inl rfl
      · exact Or.inr (List.mem_cons_of_mem _ h)
    · rcases List.mem_cons.1 h with rfl | h
      · exact Or.inl rfl
      · exact Or.inr h

end RuleState

namespace StateTable

/-! ## Scopes -/

/-- A private instance is looked up in the bucket of its group. -/
theorem find?_group (t : StateTable K) (rule group : String) :
    t.find? (.group rule group) = (t.groups.find? group).bind (·.find? rule) := rfl

theorem contains_shared (t : StateTable K) (rule : String) : t.contains (.shared rule) = t.shared.contains rule := rfl

/-- A group without a bucket has no private instances. -/
theorem contains_group (t : StateTable K) (rule group : String) :
    t.contains (.group rule group) = (t.groups.find? group).any (·.contains rule) := by
  rw [contains, find?_group]
  cases t.groups.find? group <;> rfl

/-- A tag is one of a rule that is shared or private to a group. -/
theorem tag_cases (tag : StateTag) : (∃ rule, tag = .shared rule) ∨ ∃ rule group, tag = .group rule group := by
  obtain ⟨rule, scope⟩ := tag
  cases scope with
  | shared => exact Or.inl ⟨rule, rfl⟩
  | group id => exact Or.inr ⟨rule, id, rfl⟩

/-- The two kinds of scopes are apart. -/
theorem shared_ne_group (rule rule' group : String) : StateTag.shared rule ≠ .group rule' group :=
  fun h => nomatch congrArg StateTag.scope h

theorem shared_inj {rule rule' : String} : StateTag.shared rule = .shared rule' ↔ rule = rule' :=
  ⟨congrArg StateTag.rule, congrArg StateTag.shared⟩

theorem group_inj {rule rule' group group' : String} :
    StateTag.group rule group = .group rule' group' ↔ group = group' ∧ rule = rule' := by
  simp [StateTag.group, and_comm]

theorem find?_empty (tag : StateTag) : (empty : StateTable K).find? tag = none := by
  obtain ⟨rule, rfl⟩ | ⟨rule, group, rfl⟩ := tag_cases tag <;> rfl

/-- A group reads a rule by its own tag if that has an instance, and else by the shared one. -/
theorem tagFor?_eq (t : StateTable K) (rule group : String) : t.tagFor? rule group =
    if t.contains (.group rule group) then some (.group rule group)
    else if t.contains (.shared rule) then some (.shared rule) else none := by
  rw [contains_group, contains_shared]
  rfl

/-! ## Tags -/

/-- The tags of all instances: those of the shared ones, and then those of each group. -/
def tags (t : StateTable K) : List StateTag :=
  t.shared.keys.map .shared ++ t.groups.entries.flatMap fun entry => entry.2.keys.map (.group · entry.1)

/-- The tags are those of the instances. -/
theorem mem_tags_iff {t : StateTable K} {tag : StateTag} : tag ∈ t.tags ↔ t.contains tag := by
  rw [tags, List.mem_append, List.mem_map, List.mem_flatMap]
  obtain ⟨rule, rfl⟩ | ⟨rule, group, rfl⟩ := tag_cases tag
  · rw [contains_shared, Dict.contains_iff]
    constructor
    · rintro (⟨rule', hkey, htag⟩ | ⟨entry, -, hmem⟩)
      · exact shared_inj.1 htag ▸ hkey
      · obtain ⟨rule', -, htag⟩ := List.mem_map.1 hmem
        exact absurd htag.symm (shared_ne_group _ _ _)
    · exact fun hkey => Or.inl ⟨rule, hkey, rfl⟩
  · rw [contains_group, Option.any_eq_true_iff_get]
    constructor
    · rintro (⟨rule', -, htag⟩ | ⟨entry, hentry, hmem⟩)
      · exact absurd htag (shared_ne_group _ _ _)
      · obtain ⟨rule', hkey, htag⟩ := List.mem_map.1 hmem
        obtain ⟨rfl, rfl⟩ := group_inj.1 htag
        have hfind : t.groups.find? entry.1 = some entry.2 := Dict.find?_eq_some_iff.2 hentry
        simp only [hfind]
        exact ⟨rfl, Dict.contains_iff.2 hkey⟩
    · rintro ⟨hsome, hkey⟩
      refine Or.inr ⟨(group, _), Dict.find?_eq_some_iff.1 (Option.some_get hsome).symm, ?_⟩
      exact List.mem_map.2 ⟨rule, Dict.contains_iff.1 hkey, rfl⟩

/-- No two instances have one tag: a rule is listed once in its map, and a group has one map. -/
theorem nodup_tags (t : StateTable K) : t.tags.Nodup := by
  refine List.nodup_append.2 ⟨?_, ?_, ?_⟩
  · exact t.shared.distinct.map fun _ _ h => shared_inj.1 h
  · refine List.nodup_flatMap.2 ⟨fun entry _ => entry.2.distinct.map fun _ _ h => (group_inj.1 h).2, ?_⟩
    refine (List.pairwise_map.1 t.groups.distinct).imp ?_
    intro entry other hne tag hmem hmem'
    obtain ⟨rule, -, rfl⟩ := List.mem_map.1 hmem
    obtain ⟨rule', -, htag⟩ := List.mem_map.1 hmem'
    exact hne (group_inj.1 htag).1.symm
  · intro tag hmem tag' hmem' heq
    obtain ⟨rule, -, rfl⟩ := List.mem_map.1 hmem
    obtain ⟨entry, -, hmem'⟩ := List.mem_flatMap.1 hmem'
    obtain ⟨rule', -, rfl⟩ := List.mem_map.1 hmem'
    exact shared_ne_group _ _ _ heq

/-- The sizes of the maps add up to the number of tags. -/
theorem length_tags (t : StateTable K) : t.tags.length = t.size := by
  simp only [tags, size, Dict.keys, Dict.values, Dict.size, List.length_append, List.length_map, List.length_flatMap,
    List.map_map]
  rfl

/-! ## Replacing -/

theorem replace_shared (t : StateTable K) (rule : String) (state : RuleState K) :
    t.replace (.shared rule) state = { t with shared := t.shared.modify rule fun _ => state } := rfl

theorem replace_group (t : StateTable K) (rule group : String) (state : RuleState K) :
    t.replace (.group rule group) state = { t with groups := t.groups.modify group (·.modify rule fun _ => state) } := rfl

/-- Replacing an instance changes what is found for its own tag, if there was one, and nothing else. -/
theorem find?_replace (t : StateTable K) (tag : StateTag) (state : RuleState K) (other : StateTag) :
    (t.replace tag state).find? other = if other = tag then (t.find? tag).map fun _ => state else t.find? other := by
  obtain ⟨rule, rfl⟩ | ⟨rule, group, rfl⟩ := tag_cases tag
  · obtain ⟨rule', rfl⟩ | ⟨rule', group', rfl⟩ := tag_cases other
    · simp only [shared_inj]
      exact Dict.find?_modify t.shared rule (fun _ => state) rule'
    · rw [if_neg (shared_ne_group _ _ _).symm]
      rfl
  · obtain ⟨rule', rfl⟩ | ⟨rule', group', rfl⟩ := tag_cases other
    · rw [if_neg (shared_ne_group _ _ _)]
      rfl
    · rw [replace_group, find?_group, find?_group, find?_group, Dict.find?_modify]
      simp only [group_inj]
      by_cases hgroup : group' = group
      · subst hgroup
        rw [if_pos rfl]
        cases t.groups.find? group' with
        | none => simp
        | some bucket => simp [Dict.find?_modify]
      · simp [hgroup]

/-- What was found can be put back. -/
theorem replace_of_find? {t : StateTable K} {tag : StateTag} {state : RuleState K} (h : t.find? tag = some state) :
    t.replace tag state = t := by
  obtain ⟨rule, rfl⟩ | ⟨rule, group, rfl⟩ := tag_cases tag
  · have hsame : t.shared.modify rule (fun _ => state) = t.shared := by
      refine Dict.modify_of_fixed ?_
      intro value hvalue
      exact Option.some.inj (h.symm.trans hvalue)
    rw [replace_shared, hsame]
  · have hsame : t.groups.modify group (·.modify rule fun _ => state) = t.groups := by
      refine Dict.modify_of_fixed ?_
      intro bucket hbucket
      refine Dict.modify_of_fixed ?_
      intro value hvalue
      rw [find?_group, hbucket] at h
      exact Option.some.inj (h.symm.trans hvalue)
    rw [replace_group, hsame]

/-! ## Updates -/

/-- The table after a write, or what is wrong with the write. -/
def updated (t : StateTable K) (tag : StateTag) (k : K) (f : Carrier k → Carrier k) (node : NodeId) (visit : Visit) :
    Except StateError (StateTable K) :=
  match t.find? tag with
  | none => .error (.missing tag)
  | some state =>
    match state.update? k f node visit with
    | some state => .ok (t.replace tag state)
    | none => .error (.otherKind tag (Kinds.typeName k))

/-- A write that is refused leaves the table as it is. -/
theorem update_eq (t : StateTable K) (tag : StateTag) (k : K) (f : Carrier k → Carrier k) (node : NodeId) (visit : Visit) :
    t.update tag k f node visit =
      match t.updated tag k f node visit with
      | .ok t' => (.ok (), t')
      | .error e => (.error e, t) := by
  unfold update updated
  cases hfind : t.find? tag with
  | none => rfl
  | some state =>
    dsimp only
    rw [RuleState.apply_eq]
    cases state.update? k f node visit with
    | some state' => rfl
    | none => exact congrArg (Prod.mk _) (replace_of_find? hfind)

/-- A write that succeeds replaces one instance by what the reducer makes of it. -/
theorem updated_eq_ok {t t' : StateTable K} {tag : StateTag} {k : K} {f : Carrier k → Carrier k} {node : NodeId}
    {visit : Visit} (h : t.updated tag k f node visit = .ok t') :
    ∃ state state', t.find? tag = some state ∧ state.update? k f node visit = some state' ∧ t' = t.replace tag state' := by
  unfold updated at h
  split at h
  · cases h
  · rename_i state hfind
    split at h
    · rename_i state' hup
      exact ⟨state, state', hfind, hup, (Except.ok.inj h).symm⟩
    · cases h

/-- A write replaces the instance it is made to, and no other. -/
theorem find?_updated {t t' : StateTable K} {tag : StateTag} {k : K} {f : Carrier k → Carrier k} {node : NodeId}
    {visit : Visit} (h : t.updated tag k f node visit = .ok t') :
    ∃ state state', t.find? tag = some state ∧ state.update? k f node visit = some state' ∧
      ∀ other, t'.find? other = if other = tag then some state' else t.find? other := by
  obtain ⟨state, state', hfind, hup, rfl⟩ := updated_eq_ok h
  refine ⟨state, state', hfind, hup, fun other => ?_⟩
  rw [find?_replace, hfind]
  rfl

/-- A write depends on nothing but the instance it is made to. -/
theorem updated_congr {t t' : StateTable K} {tag : StateTag} (h : t.find? tag = t'.find? tag) (k : K)
    (f : Carrier k → Carrier k) (node : NodeId) (visit : Visit) :
    (∃ u u', t.updated tag k f node visit = .ok u ∧ t'.updated tag k f node visit = .ok u' ∧
      ∀ other, t.find? other = t'.find? other → u.find? other = u'.find? other) ∨
    ∃ e, t.updated tag k f node visit = .error e ∧ t'.updated tag k f node visit = .error e := by
  unfold updated
  rw [← h]
  cases t.find? tag with
  | none => exact Or.inr ⟨_, rfl, rfl⟩
  | some state =>
    dsimp only
    cases state.update? k f node visit with
    | none => exact Or.inr ⟨_, rfl, rfl⟩
    | some state' =>
      refine Or.inl ⟨_, _, rfl, rfl, fun other hother => ?_⟩
      rw [find?_replace, find?_replace, h, hother]

/-! ## Marks -/

/-- Every instance of both maps is refreshed, each where it is. -/
theorem find?_refresh (t : StateTable K) (node : NodeId) (ancestors : List NodeId) (tag : StateTag) :
    (t.refresh node ancestors).find? tag = (t.find? tag).map (·.refresh node ancestors) := by
  obtain ⟨rule, rfl⟩ | ⟨rule, group, rfl⟩ := tag_cases tag
  · exact Dict.find?_map _ t.shared rule
  · rw [find?_group, find?_group]
    change ((t.groups.map _).find? group).bind _ = _
    rw [Dict.find?_map]
    cases t.groups.find? group with
    | none => rfl
    | some bucket => exact Dict.find?_map _ bucket rule

/-! ## Initialisations -/

/-- A new map for a group has no instances. -/
theorem find?_openGroup (t : StateTable K) (group : String) (tag : StateTag) : (t.openGroup group).find? tag = t.find? tag := by
  unfold openGroup
  split
  · rfl
  · rename_i hgroup
    obtain ⟨rule, rfl⟩ | ⟨rule, group', rfl⟩ := tag_cases tag
    · rfl
    · rw [find?_group, find?_group, Dict.find?_insert]
      by_cases heq : group' = group
      · subst heq
        have hnone : t.groups.find? group' = none := Option.not_isSome_iff_eq_none.1 hgroup
        rw [if_pos rfl, hnone]
        rfl
      · rw [if_neg heq]

/-- A group has a bucket once it is opened. -/
theorem contains_openGroup (t : StateTable K) (group : String) : (t.openGroup group).groups.contains group := by
  unfold openGroup
  split
  · assumption
  · rw [Dict.contains, Dict.find?_insert, if_pos rfl]
    rfl

/-- A group that has an instance has its map. -/
theorem openGroup_of_contains {t : StateTable K} {rule group : String} (h : t.contains (.group rule group)) :
    t.openGroup group = t := by
  rw [contains_group] at h
  have hgroup : t.groups.contains group := by
    rw [Dict.contains]
    cases hfind : t.groups.find? group with
    | none =>
      rw [hfind] at h
      cases h
    | some bucket => rfl
  exact if_pos hgroup

/-- The table with a new instance of a tag in its scope. -/
def withNew (t : StateTable K) (tag : StateTag) (state : RuleState K) : StateTable K :=
  match tag.scope with
  | .shared => { t with shared := t.shared.insert tag.rule state }
  | .group id => { t.openGroup id with groups := (t.openGroup id).groups.modify id (·.insert tag.rule state) }

theorem withNew_group (t : StateTable K) (rule group : String) (state : RuleState K) :
    t.withNew (.group rule group) state =
      { t.openGroup group with groups := (t.openGroup group).groups.modify group (·.insert rule state) } := rfl

/-- A new instance is found under its own tag, and the others as before. -/
theorem find?_withNew (t : StateTable K) (tag : StateTag) (state : RuleState K) (other : StateTag) :
    (t.withNew tag state).find? other = if other = tag then some state else t.find? other := by
  obtain ⟨rule, rfl⟩ | ⟨rule, group, rfl⟩ := tag_cases tag
  · obtain ⟨rule', rfl⟩ | ⟨rule', group', rfl⟩ := tag_cases other
    · simp only [shared_inj]
      exact Dict.find?_insert t.shared rule state rule'
    · rw [if_neg (shared_ne_group _ _ _).symm]
      rfl
  · rw [← find?_openGroup t group other]
    obtain ⟨bucket, hbucket⟩ := Option.isSome_iff_exists.1 (t.contains_openGroup group)
    obtain ⟨rule', rfl⟩ | ⟨rule', group', rfl⟩ := tag_cases other
    · rw [if_neg (shared_ne_group _ _ _)]
      rfl
    · rw [withNew_group, find?_group, find?_group, Dict.find?_modify]
      simp only [group_inj]
      by_cases hgroup : group' = group
      · subst hgroup
        simp [hbucket, Dict.find?_insert]
      · simp [hgroup]

/-- A shared instance is made where there is none. -/
theorem initShared_eq {m : Type → Type} [Monad m] (t : StateTable K) (rule : String) (config : Json) (make : m (StateValue K))
    (ignoreDuplicate : Bool) : t.initShared rule config make ignoreDuplicate =
      if t.contains (.shared rule) then pure (duplicate (.shared rule) ignoreDuplicate, t)
      else make >>= fun value => pure (.ok (.shared rule), t.withNew (.shared rule) (.fresh value config)) := rfl

/-- So is a private one. The map of its group does not show where it was made in vain. -/
theorem initPrivate_eq {m : Type → Type} [Monad m] (t : StateTable K) (rule group : String) (config : Json)
    (make : m (StateValue K)) (ignoreDuplicate : Bool) : t.initPrivate rule group config make ignoreDuplicate =
      if t.contains (.group rule group) then pure (duplicate (.group rule group) ignoreDuplicate, t)
      else make >>= fun value =>
        pure (.ok (.group rule group), t.withNew (.group rule group) (.fresh value config)) := by
  unfold initPrivate
  dsimp only
  rw [← contains_group, contains, find?_openGroup, ← contains]
  by_cases h : t.contains (.group rule group)
  · rw [openGroup_of_contains h, if_pos h, if_pos h]
  · rw [if_neg h, if_neg h]
    rfl

/-- An instance of a tag is made where there is none, in either scope. -/
theorem init_eq (t : StateTable K) (tag : StateTag) (config : Json) (value : StateValue K) (ignoreDuplicate : Bool) :
    t.init tag config value ignoreDuplicate =
      if t.contains tag then (duplicate tag ignoreDuplicate, t) else (.ok tag, t.withNew tag (.fresh value config)) := by
  obtain ⟨rule, rfl⟩ | ⟨rule, group, rfl⟩ := tag_cases tag
  · change Id.run (t.initShared rule config (pure value) ignoreDuplicate) = _
    rw [initShared_eq]
    split <;> rfl
  · change Id.run (t.initPrivate rule group config (pure value) ignoreDuplicate) = _
    rw [initPrivate_eq]
    split <;> rfl

end StateTable

end RuleWalk
