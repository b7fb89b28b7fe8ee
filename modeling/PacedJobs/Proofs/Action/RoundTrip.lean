import PacedJobs.Proofs.Action.Format
import PacedJobs.Proofs.Json.Compact

/-!
# Actions that are written and read again

An action is read from its written form as it was, provided that the numbers in its payload are
integers: the digits of a double need not be read back as the same double. So the written form is a
normal form of every text that is read as the action.
-/

namespace PacedJobs

namespace Json

/-- A payload as it is kept, and within what is written and read again: its objects are maps with
ascending keys, its numbers are integers, and its brackets leave room for that of the action. -/
structure Storable (v : Json) : Prop where
  ordered : v.Ordered
  integral : v.Integral
  depth_le : v.depth ≤ 126

end Json

open Json

namespace Action

def OfPayload (P : Json → Prop) : Action → Prop
  | submit payload _ _ => P payload
  | _ => True

variable {a : Action}

theorem OfPayload.imp {P Q : Json → Prop} (h : a.OfPayload P) (himp : ∀ v, P v → Q v) :
    a.OfPayload Q := by
  cases a with
  | submit payload _ _ => exact himp payload h
  | cancel _ => trivial
  | cancelBelow _ => trivial

theorem represents_members (h : a.OfPayload Ordered) : Represents (.object a.members) a := by
  cases a with
  | submit payload priority taskCount =>
    have hrepresents : Represents (.object (submit payload priority taskCount).members)
        (.submit payload.sorted priority taskCount) :=
      .submit (by simp [members, named]) (by simp [members, named])
        (.inl (by simp [members, named])) (.inl (by simp [members, named]))
    rwa [sorted_of_ordered payload h] at hrepresents
  | cancel id => exact .cancel (by simp [members, named]) (by simp [members, named])
  | cancelBelow priority => exact .cancelBelow (by simp [members, named]) (by simp [members, named])

theorem fits_of_lt {n : Nat} (h : n < 18446744073709551616) : Fits n := by
  rw [fits_iff]
  omega

theorem integral_members (h : a.OfPayload Integral) : (Json.object a.members).Integral := by
  refine ⟨trivial, ?_⟩
  cases a with
  | submit payload priority taskCount =>
    have hpriority := priority.toNat_lt
    have htaskCount := taskCount.toNat_lt
    exact ⟨trivial, h, fits_of_lt (by omega), fits_of_lt (by omega), trivial⟩
  | cancel id => exact ⟨trivial, fits_of_lt id.word.toNat_lt, trivial⟩
  | cancelBelow priority =>
    have hpriority := priority.toNat_lt
    exact ⟨trivial, fits_of_lt (by omega), trivial⟩

theorem depth_members_le {d : Nat} (h : a.OfPayload fun v => v.depth ≤ d) :
    (Json.object a.members).depth ≤ d + 1 := by
  refine Nat.succ_le_succ (membersDepth_le_iff.mpr fun m hm => ?_)
  cases a with
  | submit payload priority taskCount =>
    simp only [members, List.mem_cons, List.not_mem_nil, or_false] at hm
    rcases hm with rfl | rfl | rfl | rfl
    · exact Nat.zero_le d
    · exact h
    · exact Nat.zero_le d
    · exact Nat.zero_le d
  | cancel id =>
    simp only [members, List.mem_cons, List.not_mem_nil, or_false] at hm
    rcases hm with rfl | rfl <;> exact Nat.zero_le d
  | cancelBelow priority =>
    simp only [members, List.mem_cons, List.not_mem_nil, or_false] at hm
    rcases hm with rfl | rfl <;> exact Nat.zero_le d

theorem read_write (h : a.OfPayload Storable) : read a.write = .ok a := by
  refine (Schema.read_eq_ok_iff distinct_schema).mpr ⟨.object a.members, ?_, ?_, ?_⟩
  · exact isText_compact (integral_members (h.imp fun _ => Storable.integral))
  · exact depth_members_le (h.imp fun _ => Storable.depth_le)
  · exact schema_represents_iff.mpr (represents_members (h.imp fun _ => Storable.ordered))

/-- A payload that was read is in order, and has a bracket less open than the whole text. -/
theorem ofPayload_of_represents {v : Json} {d : Nat} (h : Represents v a)
    (hdepth : v.depth ≤ d + 1) : a.OfPayload fun payload => payload.Ordered ∧ payload.depth ≤ d := by
  have hsorted : ∀ payload : Json, payload.depth ≤ d →
      payload.sorted.Ordered ∧ payload.sorted.depth ≤ d := fun payload hpayload =>
    ⟨ordered_sorted payload, (depth_sorted_le payload).trans hpayload⟩
  have hitem : ∀ vs : List Json, (Json.array vs).depth ≤ d + 1 → ∀ v ∈ vs, v.depth ≤ d :=
    fun vs hvs => itemsDepth_le_iff.mp (Nat.le_of_succ_le_succ hvs)
  cases h with
  | submit _ hpayload _ _ =>
    have hmem := mem_of_mem_named (hpayload ▸ List.mem_singleton_self _)
    exact hsorted _ (membersDepth_le_iff.mp (Nat.le_of_succ_le_succ hdepth) _ hmem)
  | payloadItem payload => exact hsorted payload (hitem _ hdepth payload (by simp))
  | priorityItem payload _ => exact hsorted payload (hitem _ hdepth payload (by simp))
  | taskCountItem payload _ _ => exact hsorted payload (hitem _ hdepth payload (by simp))
  | cancel _ _ | cancelBelow _ _ | cancelItems _ | cancelBelowItems _ => trivial

theorem storable_of_read {text : List Char} (hread : read text = .ok a)
    (h : a.OfPayload Integral) : a.OfPayload Storable := by
  obtain ⟨v, -, hdepth, hrepresents⟩ := (Schema.read_eq_ok_iff distinct_schema).mp hread
  have hkept := ofPayload_of_represents (schema_represents_iff.mp hrepresents) hdepth
  cases a with
  | submit payload _ _ => exact ⟨hkept.1, h, hkept.2⟩
  | cancel _ => trivial
  | cancelBelow _ => trivial

/-- Writing an action and reading it again gives the action. Whatever text an action was read from,
its written form is read as the same action and is written as itself. -/
theorem round_trip :
    (∀ a : Action, a.OfPayload Storable → read a.write = .ok a) ∧
    ∀ (text : List Char) (a : Action), read text = .ok a → a.OfPayload Integral →
      read a.write = .ok a ∧ (read a.write).map write = .ok a.write := by
  refine ⟨fun a => read_write, fun text a hread h => ?_⟩
  have hwrite := read_write (storable_of_read hread h)
  exact ⟨hwrite, by rw [hwrite]; rfl⟩

/-- A payload with brackets in brackets, an escape, and both ends of the integers. -/
def nestedSubmission : Action :=
  submit
    (.object [("\n", .array [.integer (-9223372036854775808), .integer 18446744073709551615]),
      ("ü", .object [])])
    7 2

theorem round_trip_nestedSubmission :
    nestedSubmission.OfPayload Storable ∧ read nestedSubmission.write = .ok nestedSubmission ∧
      (read nestedSubmission.write).map write = .ok nestedSubmission.write := by
  have hstorable : nestedSubmission.OfPayload Storable := by
    refine ⟨⟨?_, ⟨trivial, trivial, trivial, trivial⟩, ⟨List.Pairwise.nil, trivial⟩, trivial⟩,
      ⟨trivial, ⟨trivial, ?_, ?_, trivial⟩, ⟨trivial, trivial⟩, trivial⟩, by decide⟩
    · exact List.pairwise_pair.mpr (by decide)
    · exact fits_iff.mpr (by decide)
    · exact fits_iff.mpr (by decide)
  have hread := round_trip.1 nestedSubmission hstorable
  exact ⟨hstorable, round_trip.2 _ _ hread (hstorable.imp fun _ => Storable.integral)⟩

end Action
end PacedJobs
