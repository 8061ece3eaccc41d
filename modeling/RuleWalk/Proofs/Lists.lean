import Mathlib
import RuleWalk.Assoc

/-!
# Folds, maps, first entries and sorting

A fold of steps that may fail stops at the first failure, and a successful fold of two lists one after the other is two
successful folds. An insertion into a map changes the value at its key and keeps the order of the keys, and insertions at two
keys commute. Of the entries of a list with one key the first can be picked. A sort is stable: it keeps the order of what its
comparison does not tell apart.
-/

namespace RuleWalk

/-! ## Folds that can fail -/

section Folds

variable {α σ ε : Type} {step : σ → α → Except ε σ} {s t : σ} {x : α}

theorem eq_ok_of_toOption {x : Except ε α} {a : α} (h : x.toOption = some a) : x = .ok a := by
  cases x with
  | error e => cases h
  | ok b =>
    cases h
    rfl

/-- What comes of a step and a next one comes of both. -/
theorem exists_of_bind_eq_ok {β : Type} {x : Except ε α} {next : α → Except ε β} {b : β} (h : x >>= next = .ok b) :
    ∃ a, x = .ok a ∧ next a = .ok b := by
  cases x with
  | error e => cases h
  | ok a => exact ⟨a, rfl, h⟩

theorem foldlM_cons_of_ok (rest : List α) (h : step s x = .ok t) : (x :: rest).foldlM step s = rest.foldlM step t := by
  rw [List.foldlM_cons, h]
  rfl

theorem foldlM_cons_of_error {e : ε} (rest : List α) (h : step s x = .error e) :
    (x :: rest).foldlM step s = .error e := by
  rw [List.foldlM_cons, h]
  rfl

/-- A fold that succeeds has taken its first step and gone on from there. -/
theorem foldlM_cons_eq_ok {rest : List α} {u : σ} (h : (x :: rest).foldlM step s = .ok u) :
    ∃ t, step s x = .ok t ∧ rest.foldlM step t = .ok u := by
  cases hx : step s x with
  | error e =>
    rw [foldlM_cons_of_error rest hx] at h
    cases h
  | ok t =>
    rw [foldlM_cons_of_ok rest hx] at h
    exact ⟨t, rfl, h⟩

theorem foldlM_append_of_ok {before : List α} (after : List α) (h : before.foldlM step s = .ok t) :
    (before ++ after).foldlM step s = after.foldlM step t := by
  rw [List.foldlM_append, h]
  rfl

theorem foldlM_append_eq_ok {before after : List α} {u : σ} (h : (before ++ after).foldlM step s = .ok u) :
    ∃ t, before.foldlM step s = .ok t ∧ after.foldlM step t = .ok u := by
  rw [List.foldlM_append] at h
  cases hb : before.foldlM step s with
  | error e =>
    rw [hb] at h
    cases h
  | ok t =>
    rw [hb] at h
    exact ⟨t, rfl, h⟩

/-- A fold that fails has failed at one step, and all steps before it have succeeded. -/
theorem foldlM_eq_error {l : List α} {e : ε} (h : l.foldlM step s = .error e) :
    ∃ before x after t, l = before ++ x :: after ∧ before.foldlM step s = .ok t ∧ step t x = .error e := by
  induction l generalizing s with
  | nil => cases h
  | cons x rest ih =>
    cases hx : step s x with
    | error e' =>
      rw [foldlM_cons_of_error rest hx] at h
      cases h
      exact ⟨[], x, rest, s, rfl, rfl, hx⟩
    | ok t =>
      rw [foldlM_cons_of_ok rest hx] at h
      obtain ⟨before, y, after, u, rfl, hbefore, hy⟩ := ih h
      exact ⟨x :: before, y, after, u, rfl, by rw [foldlM_cons_of_ok _ hx, hbefore], hy⟩

/-- What every step keeps, a successful fold keeps. -/
theorem foldlM_keeps (keeps : σ → Prop) {l : List α} (hstep : ∀ x ∈ l, ∀ s t, keeps s → step s x = .ok t → keeps t)
    (hs : keeps s) (h : l.foldlM step s = .ok t) : keeps t := by
  induction l generalizing s with
  | nil =>
    cases h
    exact hs
  | cons x rest ih =>
    obtain ⟨u, hx, hrest⟩ := foldlM_cons_eq_ok h
    exact ih (fun y hy => hstep y (List.mem_cons_of_mem _ hy)) (hstep x List.mem_cons_self s u hs hx) hrest

/-- What every step carries on from the list done so far, a successful fold carries on to its end. -/
theorem foldlM_carries (holds : List α → σ → Prop)
    (hstep : ∀ done x s t, holds done s → step s x = .ok t → holds (done ++ [x]) t) {done l : List α} (hs : holds done s)
    (h : l.foldlM step s = .ok t) : holds (done ++ l) t := by
  induction l generalizing done s with
  | nil =>
    cases h
    rwa [List.append_nil]
  | cons x rest ih =>
    obtain ⟨u, hx, hrest⟩ := foldlM_cons_eq_ok h
    rw [List.append_cons]
    exact ih (hstep done x s u hs hx) hrest

/-- A fold seen through a view: if each step is seen as a step of a second fold, the folds are seen to end alike. -/
theorem foldlM_view {τ : Type} {seen : τ → α → Except ε τ} (view : σ → τ) (keeps : σ → Prop)
    (hkeeps : ∀ s x t, keeps s → step s x = .ok t → keeps t) (hstep : ∀ s x, keeps s → (step s x).map view = seen (view s) x)
    (l : List α) (hs : keeps s) : (l.foldlM step s).map view = l.foldlM seen (view s) := by
  induction l generalizing s with
  | nil => rfl
  | cons x rest ih =>
    have hx := hstep s x hs
    cases hstep : step s x with
    | error e =>
      rw [hstep] at hx
      rw [foldlM_cons_of_error rest hstep, foldlM_cons_of_error rest hx.symm]
      rfl
    | ok t =>
      rw [hstep] at hx
      rw [foldlM_cons_of_ok rest hstep, foldlM_cons_of_ok rest hx.symm]
      exact ih (hkeeps s x t hs hstep)

end Folds

/-! ## Association lists -/

/-- A map of values leaves the keys alone. -/
theorem lookup_map_value {κ β γ : Type} [BEq κ] (f : β → γ) (map : List (κ × β)) (key : κ) :
    (map.map fun (k, v) => (k, f v)).lookup key = (map.lookup key).map f := by
  induction map with
  | nil => rfl
  | cons entry rest ih =>
    obtain ⟨k, v⟩ := entry
    simp only [List.map_cons, List.lookup_cons]
    cases key == k with
    | true => rfl
    | false => exact ih

/-- What an insertion changes: the value at its key. -/
theorem Assoc.lookup_insert {κ β : Type} [BEq κ] [LawfulBEq κ] [DecidableEq κ] [Ord κ] [Std.LawfulEqOrd κ] (key : κ) (value : β)
    (map : List (κ × β)) (other : κ) :
    (Assoc.insert key value map).lookup other = if other = key then some value else map.lookup other := by
  induction map with
  | nil => exact lookup_cons_eq other key value []
  | cons entry rest ih =>
    obtain ⟨k, v⟩ := entry
    rw [Assoc.insert]
    split
    · exact lookup_cons_eq other key value _
    · rename_i heq
      obtain rfl : key = k := Std.LawfulEqOrd.eq_of_compare heq
      rw [lookup_cons_eq, lookup_cons_eq]
      split <;> rfl
    · rename_i hgt
      have hne : key ≠ k := by
        rintro rfl
        simp at hgt
      rw [lookup_cons_eq, lookup_cons_eq, ih]
      by_cases hk : other = k
      · rw [if_pos hk, if_pos hk, if_neg (fun h => hne (h.symm.trans hk))]
      · rw [if_neg hk, if_neg hk]

section Maps

variable {κ β : Type} [Ord κ]

/-- The keys stand in increasing order, each once. -/
def Assoc.Increasing (map : List (κ × β)) : Prop :=
  (Assoc.keys map).Pairwise fun a b => compare a b = .lt

theorem Assoc.mem_keys_insert {key other : κ} {value : β} {map : List (κ × β)}
    (h : other ∈ Assoc.keys (Assoc.insert key value map)) : other = key ∨ other ∈ Assoc.keys map := by
  induction map with
  | nil => exact Or.inl (List.mem_singleton.1 h)
  | cons first rest ih =>
    rw [Assoc.insert] at h
    split at h
    · exact List.mem_cons.1 h
    · exact (List.mem_cons.1 h).imp_right (List.mem_cons_of_mem _)
    · rcases List.mem_cons.1 h with rfl | h
      · exact Or.inr List.mem_cons_self
      · exact (ih h).imp_right (List.mem_cons_of_mem _)

/-- A second insertion at a key makes the first undone. -/
theorem Assoc.insert_insert [Std.LawfulEqOrd κ] (key : κ) (first second : β) (map : List (κ × β)) :
    Assoc.insert key second (Assoc.insert key first map) = Assoc.insert key second map := by
  induction map with
  | nil => simp [Assoc.insert]
  | cons entry rest ih =>
    obtain ⟨k, v⟩ := entry
    cases h : compare key k with
    | lt => simp [Assoc.insert, h]
    | eq => simp [Assoc.insert, h]
    | gt => simp [Assoc.insert, h, ih]

variable [Std.TransOrd κ]

/-- An insertion keeps the keys in increasing order. -/
theorem Assoc.Increasing.insert [Std.LawfulEqOrd κ] {map : List (κ × β)} (h : Assoc.Increasing map) (key : κ) (value : β) :
    Assoc.Increasing (Assoc.insert key value map) := by
  induction map with
  | nil => exact List.pairwise_singleton _ _
  | cons first rest ih =>
    obtain ⟨k, v⟩ := first
    obtain ⟨hfirst, hrest⟩ := List.pairwise_cons.1 h
    rw [Assoc.insert]
    split
    · rename_i hlt
      refine List.pairwise_cons.2 ⟨fun other hother => ?_, h⟩
      rcases List.mem_cons.1 hother with rfl | hother
      · exact hlt
      · exact Std.TransCmp.lt_trans hlt (hfirst other hother)
    · rename_i heq
      obtain rfl := Std.LawfulEqCmp.compare_eq_iff_eq.1 heq
      exact h
    · rename_i hgt
      refine List.pairwise_cons.2 ⟨fun other hother => ?_, ih hrest⟩
      rcases Assoc.mem_keys_insert hother with rfl | hother
      · exact Std.OrientedCmp.gt_iff_lt.1 hgt
      · exact hfirst other hother

theorem Assoc.insert_comm_of_lt {key other : κ} (h : compare key other = .lt) (value value' : β) (map : List (κ × β)) :
    Assoc.insert key value (Assoc.insert other value' map) = Assoc.insert other value' (Assoc.insert key value map) := by
  have hgt : compare other key = .gt := Std.OrientedCmp.gt_iff_lt.2 h
  induction map with
  | nil => simp [Assoc.insert, h, hgt]
  | cons entry rest ih =>
    obtain ⟨k, v⟩ := entry
    cases hk : compare key k with
    | lt => cases ho : compare other k <;> simp [Assoc.insert, h, hgt, hk, ho]
    | eq =>
      have ho : compare other k = .gt := Std.TransCmp.gt_of_gt_of_eq hgt hk
      simp [Assoc.insert, hgt, hk, ho]
    | gt =>
      have ho : compare other k = .gt := Std.TransCmp.gt_trans hgt hk
      simp [Assoc.insert, hk, ho, ih]

/-- Insertions at two keys may come in any order. -/
theorem Assoc.insert_comm [Std.LawfulEqOrd κ] {key other : κ} (hne : key ≠ other) (value value' : β) (map : List (κ × β)) :
    Assoc.insert key value (Assoc.insert other value' map) = Assoc.insert other value' (Assoc.insert key value map) := by
  cases h : compare key other with
  | lt => exact Assoc.insert_comm_of_lt h value value' map
  | eq => exact absurd (Std.LawfulEqCmp.compare_eq_iff_eq.1 h) hne
  | gt => exact (Assoc.insert_comm_of_lt (Std.OrientedCmp.gt_iff_lt.1 h) value' value map).symm

end Maps

/-! ## First entries -/

section Firsts

variable {α κ : Type} [DecidableEq κ] (key : α → κ)

/-- The first entry of each key. -/
def firsts (l : List α) : List α :=
  l.foldl (fun found x => if key x ∈ found.map key then found else found ++ [x]) []

theorem firsts_concat_eq (l : List α) (x : α) :
    firsts key (l ++ [x]) = if key x ∈ (firsts key l).map key then firsts key l else firsts key l ++ [x] :=
  List.foldl_concat ..

theorem mem_keys_firsts (l : List α) (k : κ) : k ∈ (firsts key l).map key ↔ k ∈ l.map key := by
  induction l using List.reverseRecOn with
  | nil => rfl
  | append_singleton l x ih =>
    rw [firsts_concat_eq]
    by_cases hx : key x ∈ (firsts key l).map key
    · rw [if_pos hx, ih, List.map_append, List.mem_append, or_iff_left_of_imp]
      intro hk
      rw [List.map_singleton, List.mem_singleton] at hk
      exact ih.1 (hk ▸ hx)
    · rw [if_neg hx, List.map_append, List.map_append, List.mem_append, List.mem_append, ih]

theorem firsts_concat (l : List α) (x : α) :
    firsts key (l ++ [x]) = if key x ∈ l.map key then firsts key l else firsts key l ++ [x] := by
  rw [firsts_concat_eq]
  exact if_congr (mem_keys_firsts key l (key x)) rfl rfl

theorem nodup_firsts (l : List α) : ((firsts key l).map key).Nodup := by
  induction l using List.reverseRecOn with
  | nil => exact List.nodup_nil
  | append_singleton l x ih =>
    rw [firsts_concat_eq]
    split
    · exact ih
    · rename_i hx
      rw [List.map_append, List.nodup_append]
      refine ⟨ih, List.nodup_singleton _, fun k hk k' hk' => ?_⟩
      rw [List.map_singleton, List.mem_singleton] at hk'
      rintro rfl
      exact hx (hk' ▸ hk)

/-- An entry is the first of its key if the key does not occur before it. -/
theorem mem_firsts_iff {l : List α} {x : α} :
    x ∈ firsts key l ↔ ∃ before after, l = before ++ x :: after ∧ key x ∉ before.map key := by
  induction l using List.reverseRecOn with
  | nil => simp [firsts]
  | append_singleton l y ih =>
    have hsplit : (∃ before after, l ++ [y] = before ++ x :: after ∧ key x ∉ before.map key) ↔
        (∃ before after, l = before ++ x :: after ∧ key x ∉ before.map key) ∨ x = y ∧ key y ∉ l.map key := by
      constructor
      · rintro ⟨before, after, heq, hx⟩
        rcases List.eq_nil_or_concat after with rfl | ⟨after, z, rfl⟩
        · obtain ⟨rfl, hy⟩ := List.append_inj' heq rfl
          cases hy
          exact Or.inr ⟨rfl, hx⟩
        · rw [List.concat_eq_append, ← List.cons_append, ← List.append_assoc] at heq
          exact Or.inl ⟨before, after, (List.append_inj' heq rfl).1, hx⟩
      · rintro (⟨before, after, rfl, hx⟩ | ⟨rfl, hx⟩)
        · exact ⟨before, after ++ [y], by simp, hx⟩
        · exact ⟨l, [], rfl, hx⟩
    rw [hsplit, ← ih, firsts_concat]
    by_cases hy : key y ∈ l.map key
    · rw [if_pos hy]
      exact (or_iff_left fun h => h.2 hy).symm
    · rw [if_neg hy, List.mem_append, List.mem_singleton]
      exact or_congr_right (iff_self_and.2 fun _ => hy)

theorem mem_of_mem_firsts {l : List α} {x : α} (h : x ∈ firsts key l) : x ∈ l := by
  obtain ⟨before, after, rfl, -⟩ := (mem_firsts_iff key).1 h
  exact List.mem_append_right _ List.mem_cons_self

theorem firsts_id (l : List κ) : firsts id l = l.eraseDups := by
  induction l using List.reverseRecOn with
  | nil => rfl
  | append_singleton l x ih =>
    rw [firsts_concat, List.map_id, List.eraseDups_append, List.removeAll, ih]
    by_cases hx : x ∈ l
    · simp [hx]
    · simp [hx, List.eraseDups_cons]

theorem nodup_eraseDups (l : List κ) : l.eraseDups.Nodup := by
  rw [← firsts_id]
  simpa using nodup_firsts id l

theorem eraseDups_concat (l : List κ) (x : κ) :
    (l ++ [x]).eraseDups = if x ∈ l then l.eraseDups else l.eraseDups ++ [x] := by
  rw [← firsts_id, ← firsts_id, firsts_concat, List.map_id]
  rfl

/-- The keys of the first entries are the keys without repetition. -/
theorem map_firsts (l : List α) : (firsts key l).map key = (l.map key).eraseDups := by
  induction l using List.reverseRecOn with
  | nil => rfl
  | append_singleton l x ih =>
    rw [firsts_concat, List.map_append, List.map_singleton, eraseDups_concat]
    by_cases hx : key x ∈ l.map key
    · rw [if_pos hx, if_pos hx, ih]
    · rw [if_neg hx, if_neg hx, List.map_append, List.map_singleton, ih]

/-- Repeating an entry in its place changes nothing. -/
theorem firsts_flatMap_replicate (times : α → Nat) (l : List α) :
    firsts key (l.flatMap fun x => List.replicate (times x) x) = firsts key (l.filter (times · ≠ 0)) := by
  have happend : ∀ (l : List α) (n : Nat) (x : α), firsts key (l ++ List.replicate (n + 1) x) = firsts key (l ++ [x]) := by
    intro l n x
    induction n with
    | zero => rfl
    | succ n ih =>
      rw [List.replicate_succ', ← List.append_assoc, firsts_concat, if_pos, ih]
      simp
  induction l using List.reverseRecOn with
  | nil => rfl
  | append_singleton l x ih =>
    rw [List.flatMap_append, List.flatMap_singleton, List.filter_append]
    cases hx : times x with
    | zero => simpa [hx] using ih
    | succ n =>
      rw [happend, firsts_concat_eq, ih, List.filter_cons_of_pos (by simp [hx]), List.filter_nil, firsts_concat_eq]

/-- What entries of one key have in common can be searched for among the first ones. -/
theorem find?_firsts {p : α → Bool} {l : List α} (h : ∀ x ∈ l, ∀ y ∈ l, key x = key y → p x → p y) :
    (firsts key l).find? p = l.find? p := by
  induction l using List.reverseRecOn with
  | nil => rfl
  | append_singleton l x ih =>
    have hl := ih fun y hy z hz => h y (List.mem_append_left _ hy) z (List.mem_append_left _ hz)
    rw [firsts_concat]
    by_cases hx : key x ∈ l.map key
    · rw [if_pos hx, hl, List.find?_append]
      obtain ⟨y, hy, hkey⟩ := List.mem_map.1 hx
      by_cases hpx : p x
      · -- an earlier entry has the key and so is found first
        have hpy := h x (List.mem_append_right _ List.mem_cons_self) y (List.mem_append_left _ hy) hkey.symm hpx
        have hfound : (l.find? p).isSome := List.find?_isSome.2 ⟨y, hy, hpy⟩
        rw [Option.or_of_isSome hfound]
      · simp [hpx]
    · rw [if_neg hx, List.find?_append, List.find?_append, hl]

end Firsts

/-! ## Stable sorting -/

section Sorting

variable {α : Type}

theorem pairwise_zipIdx_lt (l : List α) (start : Nat) : (l.zipIdx start).Pairwise fun a b => a.2 < b.2 := by
  induction l generalizing start with
  | nil => exact List.Pairwise.nil
  | cons x rest ih =>
    rw [List.zipIdx_cons, List.pairwise_cons]
    exact ⟨fun b hb => List.le_snd_of_mem_zipIdx hb, ih (start + 1)⟩

/-- A stable sort keeps what holds of any two in their order, as long as the comparison does not part them. -/
theorem pairwise_mergeSort_stable {le : α → α → Bool} {keeps : α → α → Prop} (htrans : ∀ a b c, le a b → le b c → le a c)
    (htotal : ∀ a b, le a b || le b a) {l : List α} (h : l.Pairwise keeps) :
    (l.mergeSort le).Pairwise fun a b => le a b ∧ (le b a → keeps a b) := by
  rw [← List.mergeSort_zipIdx, List.pairwise_map]
  have hsorted := List.pairwise_mergeSort (List.zipIdxLE_trans htrans) (List.zipIdxLE_total htotal) l.zipIdx
  have hperm := List.mergeSort_perm l.zipIdx (List.zipIdxLE le)
  have hplaces : (l.zipIdx.mergeSort (List.zipIdxLE le)).Pairwise fun a b => a.2 ≠ b.2 :=
    hperm.symm.pairwise ((pairwise_zipIdx_lt l 0).imp Nat.ne_of_lt) Ne.symm
  refine (hsorted.and hplaces).imp_of_mem ?_
  rintro ⟨a, i⟩ ⟨b, j⟩ ha hb ⟨hle, hne⟩
  -- where the comparison ties, the places in the list decide
  have ha' : l[i]? = some a := List.mem_zipIdx_iff_getElem?.1 (hperm.mem_iff.1 ha)
  have hb' : l[j]? = some b := List.mem_zipIdx_iff_getElem?.1 (hperm.mem_iff.1 hb)
  simp only [List.zipIdxLE] at hle
  split at hle
  · rename_i hab
    refine ⟨hab, fun hba => ?_⟩
    rw [if_pos hba, decide_eq_true_eq] at hle
    obtain ⟨hi, rfl⟩ := List.getElem?_eq_some_iff.1 ha'
    obtain ⟨hj, rfl⟩ := List.getElem?_eq_some_iff.1 hb'
    exact List.pairwise_iff_getElem.1 h i j hi hj (Nat.lt_of_le_of_ne hle hne)
  · cases hle

/-- A list sorted by a key is settled by what it holds of each key. -/
theorem eq_of_sorted_of_filter_eq {κ : Type} [LinearOrder κ] (key : α → κ) {l l' : List α}
    (h : l.Pairwise fun a b => key a ≤ key b) (h' : l'.Pairwise fun a b => key a ≤ key b)
    (heq : ∀ p : α → Bool, (∀ a b, p a → p b → key a = key b) → l.filter p = l'.filter p) : l = l' := by
  have hmem : ∀ {l l' : List α}, (∀ k, l.filter (key · = k) = l'.filter (key · = k)) → ∀ a, a ∈ l → a ∈ l' := by
    intro l l' hkeys a ha
    have hfilter : a ∈ l.filter (key · = key a) := List.mem_filter.2 ⟨ha, by simp⟩
    rw [hkeys] at hfilter
    exact (List.mem_filter.1 hfilter).1
  have hkeys : ∀ k, l.filter (key · = k) = l'.filter (key · = k) := fun k =>
    heq _ fun a b ha hb => (of_decide_eq_true ha).trans (of_decide_eq_true hb).symm
  clear heq
  induction l generalizing l' with
  | nil =>
    cases l' with
    | nil => rfl
    | cons b rest => exact absurd (hmem (fun k => (hkeys k).symm) b List.mem_cons_self) List.not_mem_nil
  | cons a rest ih =>
    cases l' with
    | nil => exact absurd (hmem hkeys a List.mem_cons_self) List.not_mem_nil
    | cons b rest' =>
      have hfirst : key a ≤ key b := by
        rcases List.mem_cons.1 (hmem (fun k => (hkeys k).symm) b List.mem_cons_self) with rfl | hb
        · exact le_refl _
        · exact List.rel_of_pairwise_cons h hb
      have hfirst' : key b ≤ key a := by
        rcases List.mem_cons.1 (hmem hkeys a List.mem_cons_self) with rfl | ha
        · exact le_refl _
        · exact List.rel_of_pairwise_cons h' ha
      have hheads := hkeys (key a)
      rw [List.filter_cons_of_pos (by simp), List.filter_cons_of_pos (by simp [le_antisymm hfirst' hfirst])] at hheads
      obtain ⟨rfl, htails⟩ := List.cons.inj hheads
      congr 1
      refine ih h.of_cons h'.of_cons fun k => ?_
      by_cases hk : key a = k
      · rw [← hk]
        exact htails
      · have hk' := hkeys k
        rwa [List.filter_cons_of_neg (by simpa using hk), List.filter_cons_of_neg (by simpa using hk)] at hk'

end Sorting

end RuleWalk
