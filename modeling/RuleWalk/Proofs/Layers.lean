import RuleWalk.Config.Reader
import RuleWalk.Proofs.Lists

/-!
# Layers of a configuration

Laying one value over another replaces it, unless both are objects; then it goes key by key. So a key of the last object comes
from the last layer that has it, and a value that is no object hides all layers below. The entries of a configuration are set
independently of each other. Objects are maps: their keys stand in increasing order, and so they do in every value that is read.
-/

namespace RuleWalk

/-! ## Maps -/

section Maps

variable {κ β : Type}

theorem lookup_eq_none_of_notMem [BEq κ] [LawfulBEq κ] {key : κ} {map : List (κ × β)} (h : key ∉ Assoc.keys map) :
    map.lookup key = none := by
  rw [List.lookup_eq_none_iff]
  intro entry hentry
  have hne : entry.1 ≠ key := by
    rintro rfl
    exact h (List.mem_map_of_mem hentry)
  simpa using hne.symm

variable [Ord κ]

theorem Assoc.Increasing.notMem [Std.ReflOrd κ] {key : κ} {value : β} {rest : List (κ × β)}
    (h : Assoc.Increasing ((key, value) :: rest)) : key ∉ Assoc.keys rest := by
  intro hmem
  have hlt := (List.pairwise_cons.1 h).1 key hmem
  simp at hlt

theorem Assoc.increasing_nil : Assoc.Increasing ([] : List (κ × β)) :=
  List.Pairwise.nil

/-- A map laid over another has its entries, and elsewhere those of the other. -/
theorem Assoc.lookup_merge [BEq κ] [LawfulBEq κ] [DecidableEq κ] [Std.LawfulEqOrd κ] {layer : List (κ × β)}
    (h : Assoc.Increasing layer) (base : List (κ × β)) (key : κ) :
    (Assoc.merge base layer).lookup key = (layer.lookup key).or (base.lookup key) := by
  induction layer generalizing base with
  | nil => rfl
  | cons entry rest ih =>
    obtain ⟨k, v⟩ := entry
    have hrest : Assoc.Increasing rest := List.Pairwise.of_cons h
    have hmerge : Assoc.merge base ((k, v) :: rest) = Assoc.merge (Assoc.insert k v base) rest := rfl
    rw [hmerge, ih hrest, Assoc.lookup_insert, lookup_cons_eq]
    by_cases hk : key = k
    · rw [hk, lookup_eq_none_of_notMem h.notMem]
      simp
    · simp [hk]

theorem Assoc.Increasing.merge [Std.TransOrd κ] [Std.LawfulEqOrd κ] {base : List (κ × β)} (h : Assoc.Increasing base)
    (layer : List (κ × β)) : Assoc.Increasing (Assoc.merge base layer) := by
  induction layer generalizing base with
  | nil => exact h
  | cons entry rest ih => exact ih (h.insert entry.1 entry.2)

end Maps

/-! ## Objects -/

namespace Json

/-- The value is an object. -/
def isObject : Json → Bool
  | .object _ => true
  | _ => false

/-- If the value is an object, its keys stand in increasing order, each once. -/
def Ordered : Json → Prop
  | .object members => Assoc.Increasing members
  | _ => True

theorem member?_of_not_isObject {v : Json} (h : v.isObject = false) (key : String) : v.member? key = none := by
  cases v with
  | object members => cases h
  | _ => rfl

theorem overlay_of_not_isObject {entry : Json} (h : entry.isObject = false) (v : Json) : v.overlay entry = entry := by
  cases entry with
  | object members => cases h
  | _ => cases v <;> rfl

theorem isObject_overlay (v entry : Json) : (v.overlay entry).isObject = entry.isObject := by
  cases entry <;> cases v <;> rfl

/-- What a layer does to the members: its own count first, and those below only show through an object. -/
theorem member?_overlay {entry : Json} (h : entry.Ordered) (v : Json) (key : String) :
    (v.overlay entry).member? key = if entry.isObject then (entry.member? key).or (v.member? key) else none := by
  cases hentry : entry.isObject with
  | false =>
    rw [overlay_of_not_isObject hentry, member?_of_not_isObject hentry]
    rfl
  | true =>
    cases entry with
    | object members =>
      cases v with
      | object base => exact Assoc.lookup_merge h base key
      | _ => exact Option.or_none.symm
    | _ => cases hentry

theorem Ordered.overlay {v entry : Json} (hv : v.Ordered) (hentry : entry.Ordered) : (v.overlay entry).Ordered := by
  cases entry with
  | object members =>
    cases v with
    | object base => exact Assoc.Increasing.merge hv members
    | _ => exact hentry
  | _ => cases v <;> trivial

/-! ## Layers -/

/-- A value with layers laid over it, one after the other. -/
def overlayAll (first : Json) (rest : List Json) : Json :=
  rest.foldl overlay first

theorem overlayAll_concat (first : Json) (rest : List Json) (entry : Json) :
    overlayAll first (rest ++ [entry]) = (overlayAll first rest).overlay entry :=
  List.foldl_concat ..

/-- The last layer decides whether an object comes out. -/
theorem isObject_overlayAll {first last : Json} {rest : List Json} (h : (first :: rest).getLast? = some last) :
    (overlayAll first rest).isObject = last.isObject := by
  induction rest using List.reverseRecOn with
  | nil =>
    cases h
    rfl
  | append_singleton rest entry ih =>
    rw [← List.cons_append, List.getLast?_concat] at h
    cases h
    rw [overlayAll_concat, isObject_overlay]

/-- The last layer, if it is no object, comes out as it is. -/
theorem overlayAll_of_not_isObject {first last : Json} {rest : List Json} (h : (first :: rest).getLast? = some last)
    (hlast : last.isObject = false) : overlayAll first rest = last := by
  induction rest using List.reverseRecOn with
  | nil =>
    cases h
    rfl
  | append_singleton rest entry ih =>
    rw [← List.cons_append, List.getLast?_concat] at h
    cases h
    rw [overlayAll_concat, overlay_of_not_isObject hlast]

theorem Ordered.overlayAll {first : Json} {rest : List Json} (h : ∀ layer ∈ first :: rest, layer.Ordered) :
    (overlayAll first rest).Ordered := by
  induction rest using List.reverseRecOn with
  | nil => exact h first List.mem_cons_self
  | append_singleton rest entry ih =>
    rw [overlayAll_concat]
    refine Ordered.overlay (ih fun layer hlayer => h layer ?_) (h entry (by simp))
    rw [← List.cons_append]
    exact List.mem_append_left _ hlayer

/-- A layer shows through at a key: it has the key, and all layers over it are objects without it. -/
def Shows (layers : List Json) (key : String) (v : Json) : Prop :=
  ∃ before layer above, layers = before ++ layer :: above ∧ layer.member? key = some v ∧
    ∀ other ∈ above, other.isObject ∧ other.member? key = none

theorem shows_concat {layers : List Json} {entry : Json} {key : String} {v : Json} :
    Shows (layers ++ [entry]) key v ↔
      entry.member? key = some v ∨ entry.isObject ∧ entry.member? key = none ∧ Shows layers key v := by
  constructor
  · rintro ⟨before, layer, above, heq, hmember, habove⟩
    rcases List.eq_nil_or_concat above with rfl | ⟨above, last, rfl⟩
    · obtain ⟨-, hlast⟩ := List.append_inj' heq rfl
      cases hlast
      exact Or.inl hmember
    · rw [List.concat_eq_append] at heq habove
      rw [← List.cons_append, ← List.append_assoc] at heq
      obtain ⟨rfl, hlast⟩ := List.append_inj' heq rfl
      cases hlast
      obtain ⟨hobject, hnone⟩ := habove entry (by simp)
      refine Or.inr ⟨hobject, hnone, before, layer, above, rfl, hmember, ?_⟩
      intro other hother
      exact habove other (List.mem_append_left _ hother)
  · rintro (hmember | ⟨hobject, hnone, before, layer, above, rfl, hmember, habove⟩)
    · exact ⟨layers, entry, [], rfl, hmember, by simp⟩
    · refine ⟨before, layer, above ++ [entry], by simp, hmember, ?_⟩
      intro other hother
      rcases List.mem_append.1 hother with hother | hother
      · exact habove other hother
      · rw [List.mem_singleton.1 hother]
        exact ⟨hobject, hnone⟩

/-- The value at a key is that of the layer which shows through there. -/
theorem member?_overlayAll {first : Json} {rest : List Json} (h : ∀ layer ∈ rest, layer.Ordered) {key : String} {v : Json} :
    (overlayAll first rest).member? key = some v ↔ Shows (first :: rest) key v := by
  induction rest using List.reverseRecOn with
  | nil =>
    have hnone : ¬Shows [] key v := by
      rintro ⟨before, layer, above, heq, -⟩
      simp at heq
    have hone : Shows ([] ++ [first]) key v ↔ _ := shows_concat
    simp only [hnone, and_false, or_false] at hone
    exact hone.symm
  | append_singleton rest entry ih =>
    have hrest := ih fun layer hlayer => h layer (List.mem_append_left _ hlayer)
    have hentry : entry.Ordered := h entry (by simp)
    rw [overlayAll_concat, member?_overlay hentry, ← List.cons_append, shows_concat, ← hrest]
    cases hobject : entry.isObject with
    | false => simp [member?_of_not_isObject hobject]
    | true => cases hmember : entry.member? key <;> simp

/-! ## Values that are read -/

namespace Reader

/-- What every member keeps, the members of an object keep. -/
theorem members_keeps {σ : Type} {onKey : σ → String → Except Fault (List Char → Except Fault (σ × List Char))}
    (keeps : σ → Prop) (hkey : ∀ s key read, onKey s key = .ok read → keeps s → ∀ cs s' rest,
      read cs = .ok (s', rest) → keeps s') {limit : Nat} {first : Bool} {s s' : σ} {cs rest : List Char} (hs : keeps s)
    (h : members onKey limit first s cs = .ok (s', rest)) : keeps s' := by
  induction limit generalizing first s cs with
  | zero => cases h
  | succ limit ih =>
    -- a member starts alike whether or not a comma is before it, so the first place stands for both
    have hquote : ∀ cs, members onKey (limit + 1) true s ('"' :: cs) = .ok (s', rest) → keeps s' := by
      intro cs h
      obtain ⟨⟨key, cs⟩, -, h⟩ := exists_of_bind_eq_ok h
      obtain ⟨read, hread, h⟩ := exists_of_bind_eq_ok h
      obtain ⟨cs, -, h⟩ := exists_of_bind_eq_ok h
      obtain ⟨⟨state, cs'⟩, hstate, h⟩ := exists_of_bind_eq_ok h
      exact ih (hkey s key read hread hs cs state cs' hstate) h
    rw [members] at h
    dsimp only at h
    split at h
    · cases h
    · cases h
      exact hs
    · split_ifs at h
      · exact hquote _ h
      · split at h
        · cases h
        · exact hquote _ h
        · cases h

/-- A value that is read is ordered: the members of an object come in by insertions. -/
theorem ordered_of_value {budget : Nat} {cs rest : List Char} {v : Json} (h : value budget cs = .ok (v, rest)) : v.Ordered := by
  cases v with
  | object found =>
    cases budget with
    | zero => cases h
    | succ budget =>
      rw [value] at h
      split at h
      case h_1 => cases h
      case h_2 | h_3 | h_4 | h_5 | h_6 =>
        obtain ⟨_, -, h⟩ := exists_of_bind_eq_ok h
        cases h
      case h_7 | h_9 =>
        split_ifs at h
        obtain ⟨_, -, h⟩ := exists_of_bind_eq_ok h
        cases h
      case h_8 =>
        -- only a brace opens an object
        split_ifs at h
        obtain ⟨⟨found, _⟩, hmembers, h⟩ := exists_of_bind_eq_ok h
        cases h
        refine members_keeps Assoc.Increasing ?_ Assoc.increasing_nil hmembers
        intro found key read hread hfound cs found' rest hvalue
        cases hread
        obtain ⟨_, -, h⟩ := exists_of_bind_eq_ok hvalue
        cases h
        exact hfound.insert _ _
  | _ => trivial

theorem otherKind_ne_ok {α : Type} (cs : List Char) (a : α) : otherKind cs ≠ .ok a := by
  unfold otherKind
  intro h
  split at h
  · cases h
  · cases h
  · split at h <;> cases h

/-- What every value of a map has, those that are looked up have. -/
theorem forall_of_onlyMap {α : Type} {member : List Char → Except Fault (α × List Char)} (holds : α → Prop)
    (hmember : ∀ cs a rest, member cs = .ok (a, rest) → holds a) {cs rest : List Char} {map : List (String × α)}
    (h : onlyMap member cs = .ok (map, rest)) : ∀ key a, map.lookup key = some a → holds a := by
  unfold onlyMap at h
  split at h
  · cases h
  · refine members_keeps (fun map => ∀ key a, map.lookup key = some a → holds a) ?_ (by simp) h
    intro found key read hread hfound cs found' rest hvalue
    cases hread
    obtain ⟨⟨a, _⟩, ha, h⟩ := exists_of_bind_eq_ok hvalue
    cases h
    intro other a' hlookup
    rw [Assoc.lookup_insert] at hlookup
    split_ifs at hlookup with heq
    · cases hlookup
      exact hmember _ _ _ ha
    · exact hfound other a' hlookup
  · exact absurd h (otherKind_ne_ok _ _)

end Reader

end Json

namespace Config

/-! ## Entries -/

/-- Every entry of a configuration is ordered. -/
structure Ordered (c : Config) : Prop where
  base : ∀ rule entry, c.base.lookup rule = some entry → entry.Ordered
  groups : ∀ group rule entry, c.override? group rule = some entry → entry.Ordered

theorem bucket_withOverride (c : Config) (group rule : String) (entry : Json) (other : String) :
    (c.withOverride group rule entry).bucket other =
      if other = group then Assoc.insert rule entry (c.bucket group) else c.bucket other := by
  rw [bucket, withOverride, Assoc.lookup_insert]
  split <;> rfl

/-- An override changes the entry of one rule in one group. -/
theorem override?_withOverride (c : Config) (group rule : String) (entry : Json) (group' rule' : String) :
    (c.withOverride group rule entry).override? group' rule' =
      if group' = group ∧ rule' = rule then some entry else c.override? group' rule' := by
  rw [override?, bucket_withOverride]
  by_cases hgroup : group' = group
  · rw [if_pos hgroup, Assoc.lookup_insert]
    by_cases hrule : rule' = rule
    · simp [hgroup, hrule]
    · simp [hgroup, hrule, override?]
  · simp [hgroup, override?]

theorem ordered_empty : Config.empty.Ordered :=
  ⟨by simp [empty], by simp [empty, override?, bucket]⟩

theorem Ordered.withBase {c : Config} (h : c.Ordered) (rule : String) {entry : Json} (hentry : entry.Ordered) :
    (c.withBase rule entry).Ordered := by
  refine ⟨?_, h.groups⟩
  intro other entry' hlookup
  rw [Config.withBase, Assoc.lookup_insert] at hlookup
  split_ifs at hlookup
  · cases hlookup
    exact hentry
  · exact h.base other entry' hlookup

theorem Ordered.withOverride {c : Config} (h : c.Ordered) (group rule : String) {entry : Json} (hentry : entry.Ordered) :
    (c.withOverride group rule entry).Ordered := by
  refine ⟨h.base, ?_⟩
  intro group' rule' entry' hlookup
  rw [override?_withOverride] at hlookup
  split_ifs at hlookup
  · cases hlookup
    exact hentry
  · exact h.groups group' rule' entry' hlookup

theorem Ordered.of_lookups {c : Config} (hbase : ∀ rule entry, c.base.lookup rule = some entry → entry.Ordered)
    (hgroups : ∀ group bucket, c.groups.lookup group = some bucket → ∀ rule entry, bucket.lookup rule = some entry →
      entry.Ordered) : c.Ordered := by
  refine ⟨hbase, ?_⟩
  intro group rule entry hlookup
  rw [override?, bucket] at hlookup
  cases hgroup : c.groups.lookup group with
  | none => simp [hgroup] at hlookup
  | some bucket =>
    rw [hgroup] at hlookup
    exact hgroups group bucket hgroup rule entry hlookup

section Reading

open Json.Reader

theorem ordered_of_readBase {cs rest : List Char} {base : Bucket} (h : readBase cs = .ok (base, rest)) :
    ∀ rule entry, base.lookup rule = some entry → entry.Ordered :=
  forall_of_onlyMap Json.Ordered (fun _ _ _ => ordered_of_value) h

theorem ordered_of_readGroups {cs rest : List Char} {groups : List (String × Bucket)}
    (h : readGroups cs = .ok (groups, rest)) :
    ∀ group bucket, groups.lookup group = some bucket → ∀ rule entry, bucket.lookup rule = some entry → entry.Ordered :=
  forall_of_onlyMap (fun bucket : Bucket => ∀ rule entry, bucket.lookup rule = some entry → entry.Ordered)
    (fun _ _ _ hbucket => forall_of_onlyMap Json.Ordered (fun _ _ _ => ordered_of_value) hbucket) h

theorem ordered_of_readFields {cs rest : List Char} {c : Config} (h : readFields cs = .ok (c, rest)) : c.Ordered := by
  obtain ⟨first, -, h⟩ := exists_of_bind_eq_ok h
  cases first with
  | none =>
    obtain ⟨_, -, h⟩ := exists_of_bind_eq_ok h
    cases h
    exact ordered_empty
  | some cs =>
    obtain ⟨⟨base, cs⟩, hbase, h⟩ := exists_of_bind_eq_ok h
    obtain ⟨second, -, h⟩ := exists_of_bind_eq_ok h
    cases second with
    | none =>
      obtain ⟨_, -, h⟩ := exists_of_bind_eq_ok h
      cases h
      exact Ordered.of_lookups (ordered_of_readBase hbase) (by simp)
    | some cs =>
      obtain ⟨⟨groups, cs⟩, hgroups, h⟩ := exists_of_bind_eq_ok h
      obtain ⟨_, -, h⟩ := exists_of_bind_eq_ok h
      cases h
      exact Ordered.of_lookups (ordered_of_readBase hbase) (ordered_of_readGroups hgroups)

/-- A field that is read leaves the draft ordered. -/
theorem ordered_of_onKey {d d' : Draft} {key : String} {read : List Char → Except Fault (Draft × List Char)}
    (hread : onKey d key = .ok read) (hd : (ofDraft d).Ordered) {cs rest : List Char} (h : read cs = .ok (d', rest)) :
    (ofDraft d').Ordered := by
  unfold onKey at hread
  split at hread
  · split_ifs at hread
    cases hread
    obtain ⟨⟨base, _⟩, hbase, h⟩ := exists_of_bind_eq_ok h
    cases h
    exact ⟨ordered_of_readBase hbase, hd.groups⟩
  · split_ifs at hread
    cases hread
    obtain ⟨⟨groups, _⟩, hgroups, h⟩ := exists_of_bind_eq_ok h
    cases h
    exact Ordered.of_lookups hd.base (ordered_of_readGroups hgroups)
  · cases hread
    obtain ⟨_, -, h⟩ := exists_of_bind_eq_ok h
    cases h
    exact hd

/-- A configuration that is read is ordered. -/
theorem ordered_of_read {text : String} {c : Config} (h : Config.read text = .ok c) : c.Ordered := by
  obtain ⟨⟨c', rest⟩, hreader, h⟩ := exists_of_bind_eq_ok h
  dsimp only at h
  split_ifs at h
  cases h
  unfold reader at hreader
  split at hreader
  · cases hreader
  · exact ordered_of_readFields hreader
  · obtain ⟨⟨draft, _⟩, hmembers, h⟩ := exists_of_bind_eq_ok hreader
    cases h
    have hstart : (ofDraft {}).Ordered := ordered_empty
    refine members_keeps (fun d => (ofDraft d).Ordered) ?_ hstart hmembers
    intro d key read hread hd cs d' rest h
    exact ordered_of_onKey hread hd h
  · exact absurd hreader (otherKind_ne_ok _ _)

end Reading

/-! ## Settings -/

/-- An entry that is set: in the base, or for a group. -/
inductive Setting where
  | base (rule : String) (entry : Json)
  | override (group rule : String) (entry : Json)

/-- The bucket and the rule of an entry; the base is no group. -/
def Setting.slot : Setting → Option String × String
  | .base rule _ => (none, rule)
  | .override group rule _ => (some group, rule)

/-- The configuration with an entry set. -/
def set (c : Config) : Setting → Config
  | .base rule entry => c.withBase rule entry
  | .override group rule entry => c.withOverride group rule entry

theorem withOverride_comm {group rule group' rule' : String} (h : (group, rule) ≠ (group', rule')) (c : Config)
    (entry entry' : Json) : (c.withOverride group rule entry).withOverride group' rule' entry' =
      (c.withOverride group' rule' entry').withOverride group rule entry := by
  have hleft := bucket_withOverride c group rule entry group'
  have hright := bucket_withOverride c group' rule' entry' group
  rw [withOverride, withOverride.eq_1 (c.withOverride group' rule' entry'), hleft, hright]
  by_cases hgroup : group = group'
  · subst hgroup
    have hrule : rule ≠ rule' := by
      rintro rfl
      exact h rfl
    simp [withOverride, Assoc.insert_insert, Assoc.insert_comm hrule]
  · simp [withOverride, hgroup, Ne.symm hgroup, Assoc.insert_comm hgroup]

/-- Entries at different places may be set in any order. -/
theorem set_comm {x y : Setting} (h : x.slot ≠ y.slot) (c : Config) : (c.set x).set y = (c.set y).set x := by
  cases x with
  | base rule entry =>
    cases y with
    | base rule' entry' =>
      have hne : rule' ≠ rule := by
        rintro rfl
        exact h rfl
      simp [set, withBase, Assoc.insert_comm hne]
    | override group' rule' entry' => rfl
  | override group rule entry =>
    cases y with
    | base rule' entry' => rfl
    | override group' rule' entry' =>
      refine withOverride_comm ?_ c entry entry'
      rintro heq
      cases heq
      exact h rfl

theorem foldl_set_perm {settings settings' : List Setting} (hperm : settings.Perm settings')
    (hslots : (settings.map Setting.slot).Nodup) (c : Config) : settings.foldl set c = settings'.foldl set c := by
  apply hperm.foldl_eq'
  intro x hx y hy c
  by_cases hslot : x.slot = y.slot
  · rw [List.inj_on_of_nodup_map hslots hx hy hslot]
  · exact set_comm hslot c

/-! ## Resolving -/

/-- The entries of a rule for a group: that of the base and that of the group. -/
def entries (c : Config) (group rule : String) : List Json :=
  (c.base.lookup rule).toList ++ (c.override? group rule).toList

/-- The layers of a rule's configuration in a group: what the rule declares, then its entries. -/
def layers (c : Config) (group rule : String) (declared : Json) : List Json :=
  declared :: c.entries group rule

theorem resolve_eq_overlayAll (c : Config) (group rule : String) (declared : Json) :
    c.resolve group rule declared = declared.overlayAll (c.entries group rule) := by
  rw [resolve, entries]
  cases c.base.lookup rule <;> cases c.override? group rule <;> rfl

theorem Ordered.layers {c : Config} (h : c.Ordered) {declared : Json} (hdeclared : declared.Ordered) (group rule : String) :
    ∀ layer ∈ c.layers group rule declared, layer.Ordered := by
  intro layer hlayer
  simp only [Config.layers, entries, List.mem_cons, List.mem_append, Option.mem_toList] at hlayer
  rcases hlayer with rfl | hlayer | hlayer
  · exact hdeclared
  · exact h.base rule layer hlayer
  · exact h.groups group rule layer hlayer

/-- A configuration is resolved from the layers: an object has what shows through them. -/
theorem resolve_of_isObject {c : Config} (hc : c.Ordered) (group rule : String) {declared last : Json}
    (hdeclared : declared.Ordered) (hlast : (c.layers group rule declared).getLast? = some last) (hobject : last.isObject) :
    ∃ members, c.resolve group rule declared = .object members ∧ Assoc.Increasing members ∧
      ∀ key v, members.lookup key = some v ↔ Json.Shows (c.layers group rule declared) key v := by
  have hlayers := hc.layers hdeclared group rule
  have hordered : (c.resolve group rule declared).Ordered := by
    rw [resolve_eq_overlayAll]
    exact Json.Ordered.overlayAll hlayers
  have hmember : ∀ key v, (c.resolve group rule declared).member? key = some v ↔
      Json.Shows (c.layers group rule declared) key v := by
    intro key v
    rw [resolve_eq_overlayAll]
    exact Json.member?_overlayAll fun layer hlayer => hlayers layer (List.mem_cons_of_mem _ hlayer)
  have hresolved : (c.resolve group rule declared).isObject := by
    rw [resolve_eq_overlayAll, Json.isObject_overlayAll hlast, hobject]
  cases hresolve : c.resolve group rule declared with
  | object members =>
    rw [hresolve] at hordered hmember
    exact ⟨members, rfl, hordered, hmember⟩
  | _ =>
    rw [hresolve] at hresolved
    cases hresolved

/-- What an override does to the other pairs of a group and a rule. -/
theorem withOverride_frame (c : Config) {group rule group' rule' : String} (h : (group', rule') ≠ (group, rule))
    (entry : Json) : (c.withOverride group rule entry).overrides group' rule' = c.overrides group' rule' ∧
      ∀ declared, (c.withOverride group rule entry).resolve group' rule' declared = c.resolve group' rule' declared := by
  have hsame : (c.withOverride group rule entry).override? group' rule' = c.override? group' rule' := by
    rw [override?_withOverride, if_neg fun heq => h (Prod.ext heq.1 heq.2)]
  refine ⟨by rw [overrides, overrides, hsame], ?_⟩
  intro declared
  rw [resolve, resolve, hsame]
  rfl

/-- What a base entry does: it lies between what its rule declares and the group's entry, whatever stood there before. -/
theorem layers_withBase (c : Config) (group rule : String) (entry declared : Json) :
    (c.withBase rule entry).layers group rule declared = declared :: entry :: (c.override? group rule).toList := by
  have hbase : (c.withBase rule entry).base.lookup rule = some entry := by
    rw [withBase, Assoc.lookup_insert, if_pos rfl]
  rw [layers, entries, hbase]
  rfl

/-- What a base entry does to the other rules. -/
theorem resolve_withBase_of_ne (c : Config) {rule rule' : String} (h : rule' ≠ rule) (entry : Json) (group : String)
    (declared : Json) : (c.withBase rule entry).resolve group rule' declared = c.resolve group rule' declared := by
  have hbase : (c.withBase rule entry).base.lookup rule' = c.base.lookup rule' := by
    rw [withBase, Assoc.lookup_insert, if_neg h]
  rw [resolve, resolve, hbase]
  rfl

/-- Configurations are resolved key by key. Of the layers of a rule in a group, one that comes last and is no object is the
answer; else the answer is an object that has at each key the value of the last layer with that key, as long as all layers over
it are objects, and no other keys. Entries at different places may be set in any order. A base entry is a layer of its rule in
every group, in place of the one before, and changes nothing for any other rule. An override is the entry of its rule in its
group and changes nothing for any other pair. Groups without an entry for a rule resolve it alike. -/
theorem resolved_by_key {c : Config} (hc : c.Ordered) (group rule : String) {declared : Json} (hdeclared : declared.Ordered) :
    (∀ last, (c.layers group rule declared).getLast? = some last → last.isObject = false →
      c.resolve group rule declared = last) ∧
    (∀ last, (c.layers group rule declared).getLast? = some last → last.isObject →
      ∃ members, c.resolve group rule declared = .object members ∧ Assoc.Increasing members ∧
        ∀ key v, members.lookup key = some v ↔ ∃ before layer above,
          c.layers group rule declared = before ++ layer :: above ∧ layer.member? key = some v ∧
          ∀ other ∈ above, other.isObject ∧ other.member? key = none) ∧
    (∀ settings settings' : List Setting, settings.Perm settings' → (settings.map Setting.slot).Nodup →
      settings.foldl set c = settings'.foldl set c) ∧
    (∀ entry, (∀ group' declared', (c.withBase rule entry).layers group' rule declared' =
        declared' :: entry :: (c.override? group' rule).toList) ∧
      ∀ group' rule', (c.withBase rule entry).overrides group' rule' = c.overrides group' rule' ∧
        (rule' ≠ rule → ∀ declared', (c.withBase rule entry).resolve group' rule' declared' =
          c.resolve group' rule' declared')) ∧
    (∀ entry, (c.withOverride group rule entry).override? group rule = some entry ∧
      ∀ group' rule', (group', rule') ≠ (group, rule) →
        (c.withOverride group rule entry).overrides group' rule' = c.overrides group' rule' ∧
        ∀ declared', (c.withOverride group rule entry).resolve group' rule' declared' = c.resolve group' rule' declared') ∧
    ∀ group', c.overrides group rule = false → c.overrides group' rule = false →
      c.resolve group rule declared = c.resolve group' rule declared := by
  refine ⟨?_, ?_, ?_, ?_, ?_, ?_⟩
  · intro last hlast hobject
    rw [resolve_eq_overlayAll]
    exact Json.overlayAll_of_not_isObject hlast hobject
  · intro last hlast hobject
    exact resolve_of_isObject hc group rule hdeclared hlast hobject
  · intro settings settings' hperm hslots
    exact foldl_set_perm hperm hslots c
  · intro entry
    refine ⟨fun group' declared' => layers_withBase c group' rule entry declared', ?_⟩
    intro group' rule'
    exact ⟨rfl, fun hne declared' => resolve_withBase_of_ne c hne entry group' declared'⟩
  · intro entry
    refine ⟨by simp [override?_withOverride], ?_⟩
    intro group' rule' hne
    exact withOverride_frame c hne entry
  · intro group' hgroup hgroup'
    have hnone : c.override? group rule = none := by simpa [overrides] using hgroup
    have hnone' : c.override? group' rule = none := by simpa [overrides] using hgroup'
    rw [resolve, resolve, hnone, hnone']

/-- A base entry for a rule, and an entry of a group for it that is no object. -/
def tuned : String :=
  "[\x7b\"r\": \x7b\"max\": 6, \"step\": 3\x7d\x7d, \x7b\"off\": \x7b\"r\": null\x7d\x7d]"

/-- What the rule declares. -/
def tunedDeclared : Json :=
  .object [("max", .number (.int 12)), ("warn", .bool true)]

/-- What the base is set to, in place of the entry that is read. -/
def tunedBase : Json :=
  .object [("max", .number (.int 7)), ("unit", .number (.int 1))]

/-- What another group sets. -/
def tunedOverride : Json :=
  .object [("max", .number (.int 2))]

/-- Each of the three layers gives a key, the base entry that was read gives none any more, and a value that is no object hides
them all. -/
theorem resolved_by_key_tuned : ∃ read c members, Config.read tuned = .ok read ∧
    c = (read.withBase "r" tunedBase).withOverride "strict" "r" tunedOverride ∧ tunedDeclared.Ordered ∧
    c.resolve "strict" "r" tunedDeclared = .object members ∧
    members.lookup "max" = some (.number (.int 2)) ∧ members.lookup "unit" = some (.number (.int 1)) ∧
    members.lookup "warn" = some (.bool true) ∧ members.lookup "step" = none ∧
    c.resolve "off" "r" tunedDeclared = .null := by
  have hread : Config.read tuned = .ok
      ⟨[("r", .object [("max", .number (.int 6)), ("step", .number (.int 3))])], [("off", [("r", .null)])]⟩ := rfl
  have hbase : tunedBase.Ordered := List.pairwise_pair.2 (by decide)
  have hoverride : tunedOverride.Ordered := List.pairwise_singleton _ _
  have hdeclared : tunedDeclared.Ordered := List.pairwise_pair.2 (by decide)
  have hc := ((ordered_of_read hread).withBase "r" hbase).withOverride "strict" "r" hoverride
  obtain ⟨-, hobject, -⟩ := resolved_by_key hc "strict" "r" hdeclared
  obtain ⟨hother, -⟩ := resolved_by_key hc "off" "r" hdeclared
  obtain ⟨members, hresolve, -, hlookup⟩ := hobject _ rfl rfl
  refine ⟨_, _, members, hread, rfl, hdeclared, hresolve, ?_, ?_, ?_, ?_, hother _ rfl rfl⟩
  · exact (hlookup "max" _).2 ⟨[_, _], _, [], rfl, rfl, by simp⟩
  · exact (hlookup "unit" _).2 ⟨[_], _, [_], rfl, rfl, by simp [tunedOverride, Json.isObject, Json.member?]⟩
  · exact (hlookup "warn" _).2 ⟨[], _, [_, _], rfl, rfl, by simp [tunedBase, tunedOverride, Json.isObject, Json.member?]⟩
  · refine Option.eq_none_iff_forall_not_mem.2 fun v hv => ?_
    obtain ⟨before, layer, above, hlayers, hmember, -⟩ := (hlookup "step" v).1 hv
    have hlayer : layer ∈ [tunedDeclared, tunedBase, tunedOverride] := by
      change [tunedDeclared, tunedBase, tunedOverride] = before ++ layer :: above at hlayers
      simp [hlayers]
    simp only [List.mem_cons, List.not_mem_nil, or_false] at hlayer
    rcases hlayer with rfl | rfl | rfl <;> cases hmember

end Config

end RuleWalk
