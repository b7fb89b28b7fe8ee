import Mathlib.Data.List.Basic
import Mathlib.Data.String.Basic
import PacedJobs.Proofs.Json.Grammar

/-!
# Members and their keys

Members in the order of a text may repeat a key. A value whose objects have ascending keys is what
`sorted` leaves as it is, and `sorted` takes every value to such a one, in which a key has the value
that came last.
-/

namespace PacedJobs

namespace Json

/-- The values of the members with a name, in the order of the text. -/
def named (k : String) (ms : List (String × Json)) : List Json :=
  (ms.filter (·.1 = k)).map Prod.snd

/-! ### Members with a name -/

section

variable {k l : String} {v : Json} {ms ns : List (String × Json)}

@[simp] theorem named_nil : named k [] = [] := rfl

theorem named_append : named k (ms ++ ns) = named k ms ++ named k ns := by
  simp [named]

@[simp] theorem named_cons_self : named k ((k, v) :: ms) = v :: named k ms := by
  simp [named]

theorem named_cons_of_ne (h : l ≠ k) : named k ((l, v) :: ms) = named k ms := by
  simp [named, h]

theorem mem_of_mem_named (h : v ∈ named k ms) : (k, v) ∈ ms := by
  simp only [named, List.mem_map, List.mem_filter, decide_eq_true_eq] at h
  obtain ⟨⟨l, w⟩, ⟨hm, rfl⟩, rfl⟩ := h
  exact hm

theorem named_filter_ne (h : k ≠ l) : named k (ms.filter (·.1 ≠ l)) = named k ms := by
  rw [named, named, List.filter_filter]
  congr 1
  refine List.filter_congr fun m _ => ?_
  by_cases hm : m.1 = k <;> simp [hm, h]

theorem filter_cons_self_ne : ((k, v) :: ms).filter (·.1 ≠ k) = ms.filter (·.1 ≠ k) := by
  simp

theorem filter_cons_of_ne (h : l ≠ k) :
    ((l, v) :: ms).filter (·.1 ≠ k) = (l, v) :: ms.filter (·.1 ≠ k) := by
  simp [h]

theorem filter_ne_of_named_eq_nil (h : named k ms = []) : ms.filter (·.1 ≠ k) = ms := by
  rw [List.filter_eq_self]
  intro m hm
  simp only [named, List.map_eq_nil_iff, List.filter_eq_nil_iff, decide_eq_true_eq] at h
  simpa using h m hm

end
/-! ### Ascending keys -/

def Ascending (ms : List (String × Json)) : Prop :=
  ms.Pairwise (·.1 < ·.1)

mutual

/-- The property holds of the value and of all values in it. -/
def All (P : Json → Prop) : Json → Prop
  | .array vs => P (.array vs) ∧ AllItems P vs
  | .object ms => P (.object ms) ∧ AllMembers P ms
  | v => P v

def AllItems (P : Json → Prop) : List Json → Prop
  | [] => True
  | v :: vs => v.All P ∧ AllItems P vs

def AllMembers (P : Json → Prop) : List (String × Json) → Prop
  | [] => True
  | (_, v) :: ms => v.All P ∧ AllMembers P ms

end

def KeysAscend : Json → Prop
  | .object ms => Ascending ms
  | _ => True

/-- The keys ascend in every object of the value. -/
def Ordered (v : Json) : Prop :=
  v.All KeysAscend

theorem allItems_iff {P : Json → Prop} {vs : List Json} :
    AllItems P vs ↔ ∀ v ∈ vs, v.All P := by
  induction vs with
  | nil => simp [AllItems]
  | cons v vs ih => simp [AllItems, ih]

theorem allMembers_iff {P : Json → Prop} {ms : List (String × Json)} :
    AllMembers P ms ↔ ∀ m ∈ ms, m.2.All P := by
  induction ms with
  | nil => simp [AllMembers]
  | cons m ms ih => simp [AllMembers, ih]

section

variable {k l : String} {v : Json} {ms : List (String × Json)}

theorem mem_insertIfAbsent {m : String × Json} (h : m ∈ insertIfAbsent k v ms) :
    m = (k, v) ∨ m ∈ ms := by
  induction ms with
  | nil => exact .inl (List.mem_singleton.mp h)
  | cons m' ms ih =>
    obtain ⟨l, w⟩ := m'
    unfold insertIfAbsent at h
    split_ifs at h with hlt heq
    · exact List.mem_cons.mp h
    · exact .inr h
    · rcases List.mem_cons.mp h with rfl | h
      · exact .inr List.mem_cons_self
      · exact (ih h).imp_right (List.mem_cons_of_mem _)

theorem Ascending.insertIfAbsent (h : Ascending ms) : Ascending (insertIfAbsent k v ms) := by
  induction ms with
  | nil => exact List.pairwise_singleton _ _
  | cons m ms ih =>
    obtain ⟨l, w⟩ := m
    obtain ⟨hhead, htail⟩ := List.pairwise_cons.mp h
    unfold Json.insertIfAbsent
    split_ifs with hlt heq
    · refine List.pairwise_cons.mpr ⟨fun m hm => ?_, h⟩
      rcases List.mem_cons.mp hm with rfl | hm
      · exact hlt
      · exact hlt.trans (hhead m hm)
    · exact h
    · refine List.pairwise_cons.mpr ⟨fun m hm => ?_, ih htail⟩
      rcases mem_insertIfAbsent hm with rfl | hm
      · exact lt_of_le_of_ne (not_lt.mp hlt) (Ne.symm heq)
      · exact hhead m hm

theorem insertIfAbsent_of_lt (h : ∀ m ∈ ms, k < m.1) : insertIfAbsent k v ms = (k, v) :: ms := by
  cases ms with
  | nil => rfl
  | cons m ms =>
    obtain ⟨l, w⟩ := m
    exact if_pos (h _ List.mem_cons_self)

theorem membersDepth_insertIfAbsent_le :
    membersDepth (insertIfAbsent k v ms) ≤ max v.depth (membersDepth ms) := by
  rw [membersDepth_le_iff]
  intro m hm
  rcases mem_insertIfAbsent hm with rfl | hm
  · exact le_max_left _ _
  · exact (membersDepth_le_iff.mp le_rfl m hm).trans (le_max_right _ _)

end

mutual

theorem ordered_sorted : ∀ v : Json, v.sorted.Ordered
  | .null | .bool _ | .integer _ | .double _ | .string _ => trivial
  | .array vs => ⟨trivial, allItems_iff.mpr (ordered_of_mem_sortedItems vs)⟩
  | .object ms => ⟨ascending_sortedMembers ms, allMembers_iff.mpr (ordered_of_mem_sortedMembers ms)⟩

theorem ordered_of_mem_sortedItems : ∀ vs : List Json, ∀ v ∈ sortedItems vs, v.Ordered
  | [] => List.forall_mem_nil _
  | v :: vs => List.forall_mem_cons.mpr ⟨ordered_sorted v, ordered_of_mem_sortedItems vs⟩

theorem ascending_sortedMembers : ∀ ms : List (String × Json), Ascending (sortedMembers ms)
  | [] => List.Pairwise.nil
  | (_, _) :: ms => (ascending_sortedMembers ms).insertIfAbsent

theorem ordered_of_mem_sortedMembers :
    ∀ ms : List (String × Json), ∀ m ∈ sortedMembers ms, m.2.Ordered
  | [], _, hm => absurd hm List.not_mem_nil
  | (k, v) :: ms, m, hm => by
    rcases mem_insertIfAbsent hm with rfl | hm
    · exact ordered_sorted v
    · exact ordered_of_mem_sortedMembers ms m hm

end

mutual

theorem sorted_of_ordered : ∀ v : Json, v.Ordered → v.sorted = v
  | .null, _ | .bool _, _ | .integer _, _ | .double _, _ | .string _, _ => rfl
  | .array vs, h => congrArg array (sortedItems_of_ordered vs h.2)
  | .object ms, h => congrArg object (sortedMembers_of_ordered ms h.1 h.2)

theorem sortedItems_of_ordered : ∀ vs : List Json, AllItems KeysAscend vs → sortedItems vs = vs
  | [], _ => rfl
  | v :: vs, h => by
    rw [sortedItems, sorted_of_ordered v h.1, sortedItems_of_ordered vs h.2]

theorem sortedMembers_of_ordered : ∀ ms : List (String × Json), Ascending ms →
    AllMembers KeysAscend ms → sortedMembers ms = ms
  | [], _, _ => rfl
  | (k, v) :: ms, hascending, h => by
    obtain ⟨hhead, htail⟩ := List.pairwise_cons.mp hascending
    rw [sortedMembers, sorted_of_ordered v h.1, sortedMembers_of_ordered ms htail h.2]
    exact insertIfAbsent_of_lt hhead

end

mutual

theorem depth_sorted_le : ∀ v : Json, v.sorted.depth ≤ v.depth
  | .null | .bool _ | .integer _ | .double _ | .string _ => le_rfl
  | .array vs => Nat.succ_le_succ (itemsDepth_sortedItems_le vs)
  | .object ms => Nat.succ_le_succ (membersDepth_sortedMembers_le ms)

theorem itemsDepth_sortedItems_le : ∀ vs : List Json, itemsDepth (sortedItems vs) ≤ itemsDepth vs
  | [] => le_rfl
  | v :: vs => max_le_max (depth_sorted_le v) (itemsDepth_sortedItems_le vs)

theorem membersDepth_sortedMembers_le : ∀ ms : List (String × Json),
    membersDepth (sortedMembers ms) ≤ membersDepth ms
  | [] => le_rfl
  | (_, v) :: ms => membersDepth_insertIfAbsent_le.trans
      (max_le_max (depth_sorted_le v) (membersDepth_sortedMembers_le ms))

end

end Json
end PacedJobs
