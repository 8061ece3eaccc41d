import RuleWalk.Engine.Run
import RuleWalk.Proofs.Lookups

/-!
# What a script can change

A script acts for one instance. Whatever it does, and whether it ends well or halts, it changes no other instance, all it
reports carries the tag of its own, and its writes are recorded under the node it visits. What it sees of other rules are
instances of declared dependencies, as they are when it starts.
-/

namespace RuleWalk

variable {K : Type} [Kinds K] {Note : Type}

/-- The state at the end of an attempt, whether it got through or not. -/
def Halt.last {σ ε : Type} : Except (Halt σ ε) σ → σ
  | .ok state => state
  | .error halt => halt.state

/-- An attempt seen through a view of its states. -/
def Halt.map {σ τ ε : Type} (view : σ → τ) : Except (Halt σ ε) σ → Except (Halt τ ε) τ
  | .ok state => .ok (view state)
  | .error halt => .error ⟨view halt.state, halt.error⟩

/-- What every attempt of a fold keeps is kept by the fold. -/
theorem Halt.last_foldlM {α σ ε : Type} {P : σ → Prop} {step : σ → α → Except (Halt σ ε) σ}
    (hstep : ∀ s x, P s → P (last (step s x))) (l : List α) {s : σ} (h : P s) : P (last (l.foldlM step s)) := by
  induction l generalizing s with
  | nil => exact h
  | cons x rest ih =>
    have hx := hstep s x h
    cases hs : step s x with
    | error halt =>
      rw [hs] at hx
      rw [foldlM_cons_of_error rest hs]
      exact hx
    | ok s' =>
      rw [hs] at hx
      rw [foldlM_cons_of_ok rest hs]
      exact ih hx

/-! ## The effect of a script -/

/-- What is done for an instance at a node: other instances stay as they are, what is reported carries the tag, and what
is recorded of new writes names the node. -/
structure World.ChangedFor (tag : StateTag) (node : NodeId) (w w' : World K Note) : Prop where
  others : ∀ other, other ≠ tag → w'.states.find? other = w.states.find? other
  reports : ∃ reports, w'.diagnostics = w.diagnostics ++ reports ∧ ∀ d ∈ reports, d.tag = tag
  writes : ∀ state', w'.states.find? tag = some state' → ∃ state, w.states.find? tag = some state ∧
    ∀ entry ∈ state'.history, entry.1 = node ∨ entry ∈ state.history

namespace World.ChangedFor

variable {tag : StateTag} {node : NodeId} {w w' w'' : World K Note}

/-- Reports and notes change no instance. -/
theorem of_reports {reports : List Diagnostic} (hstates : w'.states = w.states)
    (hdiagnostics : w'.diagnostics = w.diagnostics ++ reports) (hreports : ∀ d ∈ reports, d.tag = tag) :
    ChangedFor tag node w w' := by
  refine ⟨fun other _ => by rw [hstates], ⟨reports, hdiagnostics, hreports⟩, fun state h => ⟨state, ?_, fun _ => Or.inr⟩⟩
  rw [← hstates]
  exact h

theorem refl (w : World K Note) : ChangedFor tag node w w :=
  of_reports rfl (List.append_nil _).symm nofun

theorem trans (h : ChangedFor tag node w w') (h' : ChangedFor tag node w' w'') : ChangedFor tag node w w'' := by
  refine ⟨fun other hne => (h'.others other hne).trans (h.others other hne), ?_, fun state'' hfind => ?_⟩
  · obtain ⟨reports, heq, hreports⟩ := h.reports
    obtain ⟨reports', heq', hreports'⟩ := h'.reports
    refine ⟨reports ++ reports', by rw [heq', heq, List.append_assoc], fun d hd => ?_⟩
    rcases List.mem_append.1 hd with hd | hd
    · exact hreports d hd
    · exact hreports' d hd
  · obtain ⟨state', hfind', hwrites'⟩ := h'.writes state'' hfind
    obtain ⟨state, hfind, hwrites⟩ := h.writes state' hfind'
    refine ⟨state, hfind, fun entry hentry => ?_⟩
    rcases hwrites' entry hentry with heq | hentry
    · exact Or.inl heq
    · exact hwrites entry hentry

theorem of_update {k : K} {f : Carrier k → Carrier k} {visit : Visit} {states : StateTable K}
    (h : w.states.updated tag k f node visit = .ok states) : ChangedFor tag node w { w with states := states } := by
  obtain ⟨state, state', hfind, hup, hall⟩ := StateTable.find?_updated h
  refine ⟨fun other hne => ?_, ⟨[], (List.append_nil _).symm, nofun⟩, fun state'' hfind'' => ?_⟩
  · rw [hall, if_neg hne]
  · rw [hall, if_pos rfl] at hfind''
    cases hfind''
    refine ⟨state, hfind, fun entry hentry => ?_⟩
    rw [RuleState.history_update? hup] at hentry
    exact RuleState.mem_recordWrite hentry

/-- What is done for one instance concerns neither the state of another nor what was reported for it. -/
theorem frame (h : ChangedFor tag node w w') {other : StateTag} (hne : other ≠ tag) :
    w'.states.find? other = w.states.find? other ∧
      w'.diagnostics.filter (·.tag = other) = w.diagnostics.filter (·.tag = other) := by
  obtain ⟨reports, heq, hreports⟩ := h.reports
  have hnone : reports.filter (·.tag = other) = [] :=
    List.filter_eq_nil_iff.2 fun d hd htag => hne ((of_decide_eq_true htag).symm.trans (hreports d hd))
  exact ⟨h.others other hne, by rw [heq, List.filter_append, hnone, List.append_nil]⟩

/-- Of an instance, its own or another, nothing is recorded but what was before and writes at the node. -/
theorem recorded (h : ChangedFor tag node w w') {other : StateTag} {state' : RuleState K}
    (hfind : w'.states.find? other = some state') : ∃ state, w.states.find? other = some state ∧
      ∀ entry ∈ state'.history, entry.1 = node ∨ entry ∈ state.history := by
  by_cases hother : other = tag
  · subst hother
    exact h.writes state' hfind
  · rw [h.others other hother] at hfind
    exact ⟨state', hfind, fun _ => Or.inr⟩

end World.ChangedFor

/-- A write goes on with its answer: in the world after it, or in the same world where it is refused. -/
theorem Script.run_update (b : Binding) (scene : Scene) (k : K) (f : Carrier k → Carrier k)
    (next : Except EngineError Unit → Script K Note) (w : World K Note) :
    (Script.update k f next).run b scene w =
      match w.states.updated b.tag k f scene.node.id scene.visit with
      | .ok states => (next (.ok ())).run b scene { w with states := states }
      | .error e => (next (.error (.state e))).run b scene w := by
  rw [run, StateTable.update_eq]
  cases w.states.updated b.tag k f scene.node.id scene.visit <;> rfl

/-- A script changes what it may for its own instance and nothing else. -/
theorem Script.run_changedFor (b : Binding) (scene : Scene) (script : Script K Note) (w : World K Note) :
    World.ChangedFor b.tag scene.node.id w (Halt.last (script.run b scene w)) := by
  induction script generalizing w with
  | done => exact .refl w
  | fail e => exact .refl w
  | read k next ih => exact ih _ w
  | update k f next ih =>
    rw [run_update]
    cases hup : w.states.updated b.tag k f scene.node.id scene.visit with
    | ok states => exact (World.ChangedFor.of_update hup).trans (ih (.ok ()) { w with states := states })
    | error e => exact ih (.error (.state e)) w
  | request rule k next ih => exact ih _ w
  | report severity node message next ih =>
    rw [run]
    refine .trans ?_ (ih _)
    exact .of_reports rfl rfl fun d hd => by rw [List.mem_singleton.1 hd]
  | note n next ih =>
    rw [run]
    refine .trans ?_ (ih _)
    exact .of_reports rfl (List.append_nil _).symm nofun

theorem Listener.run_changedFor (l : Listener K Note) (source : Source) (direction : Direction) (node : Tree)
    (ancestry : List Tree) (w : World K Note) :
    World.ChangedFor l.binding.tag node.id w (Halt.last (l.run source direction node ancestry w)) :=
  Script.run_changedFor l.binding (l.binding.scene source direction node ancestry) _ w

/-! ## Logged runs -/

/-- What comes of an action of a script. -/
inductive Effect (K : Type) [Kinds K] where
  /-- Nothing that others could see in the table, or that was seen of them there. -/
  | none
  /-- The own instance was written. -/
  | wrote
  /-- A request was answered by an instance with its value. -/
  | told (tag : StateTag) (value : StateValue K)

/-- What comes of a write with the given answer. -/
def Effect.ofWrite : Except StateError Unit → Effect K
  | .ok () => .wrote
  | .error _ => .none

/-- What comes of a request. -/
def Binding.effect (b : Binding) (states : StateTable K) (rule : String) (k : K) : Effect K :=
  match b.external states rule, b.request states rule k with
  | .ok tag, .ok x => .told tag ⟨k, x.value⟩
  | _, _ => .none

/-- An action that a script takes: the world that it finds, and what comes of it. -/
structure Act (K : Type) [Kinds K] (Note : Type) where
  world : World K Note
  effect : Effect K

/-- Runs a script as `Script.run` does and logs its actions. -/
def Script.runLogged (b : Binding) (scene : Scene) :
    Script K Note → World K Note → List (Act K Note) × Except (Halt (World K Note) EngineError) (World K Note)
  | .done, w => ([], .ok w)
  | .fail e, w => ([], .error ⟨w, e⟩)
  | .read k next, w =>
    let (log, result) := (next (EngineError.liftState (w.states.read b.tag k))).runLogged b scene w
    (⟨w, .none⟩ :: log, result)
  | .update k f next, w =>
    let (answer, states) := w.states.update b.tag k f scene.node.id scene.visit
    let (log, result) := (next (EngineError.liftState answer)).runLogged b scene { w with states := states }
    (⟨w, .ofWrite answer⟩ :: log, result)
  | .request rule k next, w =>
    let (log, result) := (next (b.request w.states rule k)).runLogged b scene w
    (⟨w, b.effect w.states rule k⟩ :: log, result)
  | .report severity node message next, w =>
    let position := node.ranges.head?.map fun range => scene.source.position range.start
    let (log, result) :=
      next.runLogged b scene { w with diagnostics := w.diagnostics ++ [⟨b.tag, severity, message, position⟩] }
    (⟨w, .none⟩ :: log, result)
  | .note n next, w =>
    let (log, result) := next.runLogged b scene { w with notes := w.notes ++ [n] }
    (⟨w, .none⟩ :: log, result)

/-- Without its log, a logged run is a run. -/
theorem Script.forget_runLogged (b : Binding) (scene : Scene) (script : Script K Note) (w : World K Note) :
    (script.runLogged b scene w).2 = script.run b scene w := by
  induction script generalizing w with
  | done => rfl
  | fail e => rfl
  | read k next ih => exact ih _ w
  | update k f next ih => exact ih _ _
  | request rule k next ih => exact ih _ w
  | report severity node message next ih => exact ih _
  | note n next ih => exact ih _

/-- The logged run of a write that is made, or refused. -/
theorem Script.runLogged_update (b : Binding) (scene : Scene) (k : K) (f : Carrier k → Carrier k)
    (next : Except EngineError Unit → Script K Note) (w : World K Note) :
    (Script.update k f next).runLogged b scene w =
      match w.states.updated b.tag k f scene.node.id scene.visit with
      | .ok states => ((next (.ok ())).runLogged b scene { w with states := states }).map (⟨w, .wrote⟩ :: ·) id
      | .error e => ((next (.error (.state e))).runLogged b scene w).map (⟨w, .none⟩ :: ·) id := by
  rw [runLogged, StateTable.update_eq]
  cases w.states.updated b.tag k f scene.node.id scene.visit <;> rfl

/-! ## What a script is told -/

/-- What is told by an action. -/
def Effect.told? : Effect K → Option (StateTag × StateValue K)
  | .told tag value => some (tag, value)
  | _ => Option.none

/-- What a script is told of other rules: for each request that is answered, the instance and its value. -/
def Script.told (b : Binding) (scene : Scene) (script : Script K Note) (w : World K Note) : List (StateTag × StateValue K) :=
  (script.runLogged b scene w).1.filterMap (·.effect.told?)

/-- What a visitor is told of other rules at a node. -/
def Listener.told (l : Listener K Note) (source : Source) (direction : Direction) (node : Tree) (ancestry : List Tree)
    (w : World K Note) : List (StateTag × StateValue K) :=
  let scene := l.binding.scene source direction node ancestry
  (l.visitor.script scene).told l.binding scene w

/-- The instance that answers is one of a declared dependency. -/
theorem Binding.external_eq_ok {b : Binding} {states : StateTable K} {rule : String} {tag : StateTag}
    (h : b.external states rule = .ok tag) : tag.rule = rule ∧ rule ∈ b.dependencies := by
  unfold external at h
  split at h
  · cases h
  · split at h
    · rename_i hdep
      split at h
      · rename_i tag' htag
        cases h
        refine ⟨?_, by simpa using hdep⟩
        unfold StateTable.tagFor? at htag
        split at htag
        · cases htag
          rfl
        · split at htag
          · cases htag
            rfl
          · cases htag
      · cases h
    · cases h

/-- An answer gives the value that stands in the table. -/
theorem Binding.request_eq_ok {b : Binding} {states : StateTable K} {rule : String} {k : K} {x : External k}
    {tag : StateTag} (htag : b.external states rule = .ok tag) (h : b.request states rule k = .ok x) :
    (states.find? tag).map (·.value) = some ⟨k, x.value⟩ := by
  unfold request StateTable.get at h
  rw [htag] at h
  dsimp only at h
  cases hfind : states.find? tag with
  | none =>
    rw [hfind] at h
    cases h
  | some state =>
    rw [hfind] at h
    dsimp only at h
    obtain ⟨value, config, current, ancestor, history⟩ := state
    obtain ⟨kind, value⟩ := value
    by_cases hk : kind = k
    · subst hk
      simp only [StateValue.as?_mk, Except.ok.injEq] at h
      rw [← h]
      rfl
    · simp [StateValue.as?, hk] at h

/-- What a request tells is the value of an instance of a dependency. -/
theorem Binding.told_of_effect {b : Binding} {states : StateTable K} {rule : String} {k : K} {tag : StateTag}
    {value : StateValue K} (h : b.effect states rule k = .told tag value) :
    tag.rule ∈ b.dependencies ∧ (states.find? tag).map (·.value) = some value := by
  unfold effect at h
  split at h
  · rename_i tag' x htag hx
    cases h
    obtain ⟨hrule, hdep⟩ := external_eq_ok htag
    exact ⟨hrule ▸ hdep, request_eq_ok htag hx⟩
  · cases h

/-- What a script is told stood in the table when it started. -/
theorem Script.told_spec {b : Binding} {scene : Scene} {script : Script K Note} {w : World K Note} {tag : StateTag}
    {value : StateValue K} (h : (tag, value) ∈ script.told b scene w) :
    tag.rule ∈ b.dependencies ∧ (tag ≠ b.tag → (w.states.find? tag).map (·.value) = some value) := by
  induction script generalizing w with
  | done => exact absurd h List.not_mem_nil
  | fail e => exact absurd h List.not_mem_nil
  | read k next ih => exact ih _ h
  | update k f next ih =>
    rw [told, runLogged_update] at h
    cases hup : w.states.updated b.tag k f scene.node.id scene.visit with
    | ok states =>
      rw [hup] at h
      obtain ⟨hdep, hvalue⟩ := ih _ h
      refine ⟨hdep, fun hne => ?_⟩
      rw [← (World.ChangedFor.of_update hup).others tag hne]
      exact hvalue hne
    | error e =>
      rw [hup] at h
      exact ih _ h
  | request rule k next ih =>
    obtain ⟨act, hact, htold⟩ := List.mem_filterMap.1 h
    rcases List.mem_cons.1 hact with rfl | hact
    · dsimp only at htold
      cases heffect : b.effect w.states rule k with
      | none =>
        rw [heffect] at htold
        cases htold
      | wrote =>
        rw [heffect] at htold
        cases htold
      | told tag' value' =>
        rw [heffect] at htold
        cases htold
        obtain ⟨hdep, hvalue⟩ := Binding.told_of_effect heffect
        exact ⟨hdep, fun _ => hvalue⟩
    · exact ih _ (List.mem_filterMap.2 ⟨act, hact, htold⟩)
  | report severity node message next ih =>
    have hnext := ih (w := { w with diagnostics := _ }) h
    exact hnext
  | note n next ih =>
    have hnext := ih (w := { w with notes := _ }) h
    exact hnext

end RuleWalk
