import Mathlib.Algebra.Group.Int.Defs
import Mathlib.Algebra.GroupWithZero.Nat
import Mathlib.Data.Finset.Card
import Mathlib.Data.Finset.Range
import Mathlib.Logic.Function.Basic

/-!
# Open addressing

A hash table with linear probing: a key is looked for from its home slot on, up to its own slot or the first free one.
As long as a slot is free a search ends, and a table that was filled by `put` holds every key at the slot where the
search for it ends (`Found`).
-/

structure ProbeTable (κ : Type u) (α : Type v) where
  cap : Nat
  slots : Nat → Option (κ × α)

namespace ProbeTable

variable {κ : Type u} {α : Type v} [DecidableEq κ] {hash : κ → Nat} {t : ProbeTable κ α} {k k' : κ} {v v' : α}

def empty (cap : Nat) : ProbeTable κ α := ⟨cap, fun _ => none⟩

/-- The search for `k` ends at slot `i`. -/
def stops (t : ProbeTable κ α) (k : κ) (i : Nat) : Bool :=
  match t.slots i with
  | none => true
  | some (k', _) => decide (k' = k)

/-- The first of the `n` slots from `i` on where `p` holds. -/
def probe (cap : Nat) (p : Nat → Bool) : Nat → Nat → Option Nat
  | 0, _ => none
  | n + 1, i => if p i then some i else probe cap p n ((i + 1) % cap)

/-- The slot where the search for a key ends, `none` when it goes round for ever. -/
def locate (hash : κ → Nat) (t : ProbeTable κ α) (k : κ) : Option Nat :=
  probe t.cap (t.stops k) t.cap (hash k % t.cap)

def set (t : ProbeTable κ α) (i : Nat) (x : κ × α) : ProbeTable κ α :=
  { t with slots := Function.update t.slots i (some x) }

def put (hash : κ → Nat) (t : ProbeTable κ α) (k : κ) (v : α) : ProbeTable κ α :=
  match t.locate hash k with
  | none => t
  | some i => t.set i (k, v)

def get (hash : κ → Nat) (t : ProbeTable κ α) (k : κ) : Option α :=
  match t.locate hash k with
  | none => none
  | some i => (t.slots i).map (·.2)

/-- The table after a row of insertions. -/
def fill (hash : κ → Nat) (cap : Nat) (l : List (κ × α)) : ProbeTable κ α :=
  l.foldl (fun t x => t.put hash x.1 x.2) (empty cap)

/-! ## Probing -/

theorem probe_stops {cap n i j : Nat} {p : Nat → Bool} (h : probe cap p n i = some j) : p j = true := by
  induction n generalizing i with
  | zero => cases h
  | succ n ih =>
    rw [probe] at h
    split at h
    · next hp =>
      cases h
      exact hp
    · exact ih h

/-- Fewer slots that stop a search do not change where it ends, if that slot still stops it. -/
theorem probe_mono {cap n i j : Nat} {p p' : Nat → Bool} (h : probe cap p n i = some j)
    (hp : ∀ x, p' x = true → p x = true) (hj : p' j = true) : probe cap p' n i = some j := by
  induction n generalizing i with
  | zero => cases h
  | succ n ih =>
    rw [probe] at h ⊢
    split at h
    · cases h
      rw [if_pos hj]
    · next hi => rw [if_neg fun h' => hi (hp i h'), ih h]

theorem probe_none {cap n i : Nat} {p : Nat → Bool} (hi : i < cap) (h : probe cap p n i = none) :
    ∀ m < n, p ((i + m) % cap) = false := by
  induction n generalizing i with
  | zero => exact fun m hm => absurd hm (Nat.not_lt_zero m)
  | succ n ih =>
    rw [probe] at h
    split at h
    · cases h
    next hp =>
    intro m hm
    cases m with
    | zero => rw [Nat.add_zero, Nat.mod_eq_of_lt hi, Bool.eq_false_iff.mpr hp]
    | succ m =>
      have := ih (Nat.mod_lt _ (Nat.zero_lt_of_lt hi)) h m (Nat.lt_of_succ_lt_succ hm)
      rwa [Nat.mod_add_mod, Nat.add_assoc, Nat.add_comm 1] at this

/-- A search ends as long as a slot is free. -/
theorem locate_isSome {i : Nat} (hi : i < t.cap) (hfree : t.slots i = none) : (t.locate hash k).isSome := by
  have hcap := Nat.zero_lt_of_lt hi
  cases h : t.locate hash k with
  | some j => rfl
  | none =>
    have hm := Nat.mod_lt (hash k) hcap
    have := probe_none hm h ((i + (t.cap - hash k % t.cap)) % t.cap) (Nat.mod_lt _ hcap)
    rw [Nat.add_mod_mod, show hash k % t.cap + (i + (t.cap - hash k % t.cap)) = i + t.cap by omega,
      Nat.add_mod_right, Nat.mod_eq_of_lt hi, stops, hfree] at this
    cases this

/-! ## What a table holds -/

omit [DecidableEq κ] in
theorem set_slots_self {i : Nat} {x : κ × α} : (t.set i x).slots i = some x := Function.update_self ..

omit [DecidableEq κ] in
theorem set_slots_of_ne {i j : Nat} {x : κ × α} (h : j ≠ i) : (t.set i x).slots j = t.slots j :=
  Function.update_of_ne h ..

theorem stops_of_slot {i : Nat} (h : t.slots i = some (k', v)) : t.stops k i = decide (k' = k) := by rw [stops, h]

theorem stops_set_of_ne {i j : Nat} {x : κ × α} (h : j ≠ i) : (t.set i x).stops k j = t.stops k j := by
  rw [stops, stops, set_slots_of_ne h]

/-- Every entry is where the search for its key ends. -/
def Found (hash : κ → Nat) (t : ProbeTable κ α) : Prop :=
  ∀ i k v, t.slots i = some (k, v) → t.locate hash k = some i

theorem Found.empty {cap : Nat} : Found hash (empty cap : ProbeTable κ α) := fun _ _ _ h => nomatch h

theorem Found.get_iff (h : Found hash t) : t.get hash k = some v ↔ ∃ i, t.slots i = some (k, v) := by
  constructor
  · intro hget
    rw [get] at hget
    split at hget
    · cases hget
    next i hi =>
    obtain ⟨⟨k', v'⟩, hslot, rfl⟩ := Option.map_eq_some_iff.mp hget
    have hstop := probe_stops hi
    rw [stops_of_slot hslot] at hstop
    exact ⟨i, hslot.trans (by rw [of_decide_eq_true hstop])⟩
  · rintro ⟨i, hi⟩
    rw [get, h i k v hi]
    exact congrArg (Option.map (·.2)) hi

theorem put_of_locate {i : Nat} (h : t.locate hash k = some i) : t.put hash k v = t.set i (k, v) := by rw [put, h]

/-- After an insertion the searches for the entries end where they did. -/
theorem Found.put (h : Found hash t) (k : κ) (v : α) : Found hash (t.put hash k v) := by
  cases hi : t.locate hash k with
  | none =>
    rw [ProbeTable.put, hi]
    exact h
  | some i =>
    have hstop := probe_stops hi
    rw [put_of_locate hi]
    intro j k' v' hj
    -- a slot that stops the search for a key did so before
    have hmono : ∀ x, (t.set i (k, v)).stops k' x → t.stops k' x := by
      intro x hx
      by_cases hxi : x = i
      · subst hxi
        rw [stops_of_slot set_slots_self] at hx
        rwa [← of_decide_eq_true hx]
      · rwa [stops_set_of_ne hxi] at hx
    refine probe_mono ?_ hmono ((stops_of_slot hj).trans (decide_eq_true rfl))
    by_cases hji : j = i
    · subst hji
      rw [set_slots_self] at hj
      cases hj
      exact hi
    · rw [set_slots_of_ne hji] at hj
      exact h j k' v' hj

theorem Found.get_put (h : Found hash t) (hroom : (t.locate hash k).isSome) :
    (t.put hash k v).get hash k' = if k' = k then some v else t.get hash k' := by
  obtain ⟨i, hi⟩ := Option.isSome_iff_exists.mp hroom
  have hstop := probe_stops hi
  ext w
  rw [(h.put k v).get_iff, put_of_locate hi]
  split
  · next hk =>
    subst hk
    constructor
    · rintro ⟨j, hj⟩
      by_cases hji : j = i
      · subst hji
        rw [set_slots_self] at hj
        cases hj
        rfl
      · rw [set_slots_of_ne hji] at hj
        exact absurd (Option.some.inj ((h j k' w hj).symm.trans hi)) hji
    · intro hw
      cases hw
      exact ⟨i, set_slots_self⟩
  · next hk =>
    rw [h.get_iff]
    refine exists_congr fun j => ?_
    by_cases hji : j = i
    · subst hji
      rw [set_slots_self]
      refine ⟨fun hj => absurd (congrArg Prod.fst (Option.some.inj hj)).symm hk, fun hj => ?_⟩
      rw [stops_of_slot hj] at hstop
      exact absurd (of_decide_eq_true hstop) hk
    · rw [set_slots_of_ne hji]

/-! ## Room -/

/-- The slots that are taken. -/
def used (t : ProbeTable κ α) : Finset Nat := (Finset.range t.cap).filter fun i => (t.slots i).isSome

theorem put_cap : (t.put hash k v).cap = t.cap := by
  rw [put]
  split <;> rfl

theorem card_used_put : (t.put hash k v).used.card ≤ t.used.card + 1 := by
  cases hi : t.locate hash k with
  | none =>
    rw [put, hi]
    exact Nat.le_succ _
  | some i =>
    refine (Finset.card_le_card fun j hj => ?_).trans (Finset.card_insert_le i t.used)
    rw [put_of_locate hi, used, Finset.mem_filter] at hj
    by_cases hji : j = i
    · exact Finset.mem_insert.mpr (.inl hji)
    · rw [set_slots_of_ne hji] at hj
      exact Finset.mem_insert_of_mem (Finset.mem_filter.mpr hj)

theorem locate_isSome_of_card (h : t.used.card < t.cap) : (t.locate hash k).isSome := by
  rw [← Finset.card_range t.cap] at h
  obtain ⟨i, hi, hfree⟩ := Finset.exists_mem_notMem_of_card_lt_card h
  refine locate_isSome (Finset.mem_range.mp hi) ?_
  rw [used, Finset.mem_filter, not_and] at hfree
  simpa using hfree hi

/-! ## Filled tables -/

theorem fill_concat {cap : Nat} {l : List (κ × α)} {x : κ × α} :
    fill hash cap (l ++ [x]) = (fill hash cap l).put hash x.1 x.2 := by
  rw [fill, List.foldl_append]
  rfl

theorem fill_spec (hash : κ → Nat) (cap : Nat) (l : List (κ × α)) :
    Found hash (fill hash cap l) ∧ (fill hash cap l).cap = cap ∧ (fill hash cap l).used.card ≤ l.length := by
  induction l using List.reverseRecOn with
  | nil => exact ⟨.empty, rfl, by simp [fill, used, empty]⟩
  | append_singleton l x ih =>
    rw [fill_concat, List.length_append, List.length_singleton]
    exact ⟨ih.1.put x.1 x.2, put_cap.trans ih.2.1, card_used_put.trans (Nat.add_le_add_right ih.2.2 1)⟩

/-- A search in a table that has more slots than were filled ends. -/
theorem locate_fill {cap : Nat} {l : List (κ × α)} (h : l.length < cap) (k : κ) :
    ((fill hash cap l).locate hash k).isSome := by
  obtain ⟨-, hcap, hused⟩ := fill_spec hash cap l
  exact locate_isSome_of_card (by omega)

/-- A filled table has the last value of each key. -/
theorem get_fill {cap : Nat} {l : List (κ × α)} (h : l.length < cap) (k : κ) :
    (fill hash cap l).get hash k = (l.reverse.find? fun x => x.1 = k).map (·.2) := by
  induction l using List.reverseRecOn with
  | nil =>
    cases hget : (fill hash cap []).get hash k with
    | none => rfl
    | some v =>
      obtain ⟨i, hi⟩ := Found.empty.get_iff.mp hget
      cases hi
  | append_singleton l x ih =>
    rw [List.length_append, List.length_singleton] at h
    rw [fill_concat, (fill_spec hash cap l).1.get_put (locate_fill (by omega) _), ih (by omega), List.reverse_append]
    rw [List.reverse_singleton, List.singleton_append, List.find?_cons]
    split
    · next hk =>
      subst hk
      rw [decide_eq_true rfl]
      rfl
    · next hk => rw [decide_eq_false (Ne.symm hk)]

end ProbeTable
