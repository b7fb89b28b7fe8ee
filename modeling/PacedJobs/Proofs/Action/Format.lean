import PacedJobs.Action
import PacedJobs.Proofs.Json.Compact
import PacedJobs.Proofs.Json.Doubles
import PacedJobs.Proofs.Schema.Tags

/-!
# The format of actions

Which values stand for which actions, as objects in which the members may come in any order among
others, and as arrays whose elements come in the order of the fields. The reader takes the texts of
these values and no others, where a double in a payload is rounded in steps.
-/

namespace PacedJobs

open Json

namespace Action

/-- The number that a field gives, where it may be left out for a default. -/
def Gives (default n : Nat) (vs : List Json) : Prop :=
  vs = [.integer n] ∨ vs = [] ∧ n = default

/-- The plain values that stand for an action. A payload is kept with its keys in order. -/
inductive Represents : Json → Action → Prop
  | submit {ms : List (String × Json)} {payload : Json} {priority : UInt16} {taskCount : UInt32} :
      named "action" ms = [.string "submit"] → named "payload" ms = [payload] →
      Gives 0 priority.toNat (named "priority" ms) →
      Gives 1 taskCount.toNat (named "task-count" ms) →
      Represents (.object ms) (.submit payload.sorted priority taskCount)
  | cancel {ms : List (String × Json)} {id : JobId} :
      named "action" ms = [.string "cancel"] → named "id" ms = [.integer id.word.toNat] →
      Represents (.object ms) (.cancel id)
  | cancelBelow {ms : List (String × Json)} {priority : UInt16} :
      named "action" ms = [.string "cancel-below"] →
      named "priority" ms = [.integer priority.toNat] →
      Represents (.object ms) (.cancelBelow priority)
  | payloadItem (payload : Json) :
      Represents (.array [.string "submit", payload]) (.submit payload.sorted 0 1)
  | priorityItem (payload : Json) (priority : UInt16) :
      Represents (.array [.string "submit", payload, .integer priority.toNat])
        (.submit payload.sorted priority 1)
  | taskCountItem (payload : Json) (priority : UInt16) (taskCount : UInt32) :
      Represents
        (.array [.string "submit", payload, .integer priority.toNat, .integer taskCount.toNat])
        (.submit payload.sorted priority taskCount)
  | cancelItems (id : JobId) :
      Represents (.array [.string "cancel", .integer id.word.toNat]) (.cancel id)
  | cancelBelowItems (priority : UInt16) :
      Represents (.array [.string "cancel-below", .integer priority.toNat]) (.cancelBelow priority)

theorem distinct_schema : schema.Distinct := by
  intro variant hvariant
  simp only [schema, List.mem_cons, List.not_mem_nil, or_false] at hvariant
  rcases hvariant with rfl | rfl | rfl <;> decide

theorem find?_eq_some_iff {name : String} {variant : Variant Action} :
    schema.find? name = some variant ↔ variant ∈ schema.variants ∧ variant.name = name := by
  constructor
  · intro h
    exact ⟨List.mem_of_find?_eq_some h, by simpa using List.find?_some h⟩
  · rintro ⟨hvariant, rfl⟩
    simp only [schema, List.mem_cons, List.not_mem_nil, or_false] at hvariant
    rcases hvariant with rfl | rfl | rfl <;> rfl

/-! ### Fields -/

variable {name : String} {vs : List Json}

theorem holds_word16_iff {default : Option UInt16} {x : UInt16} :
    Field.Holds ⟨name, .word16, default⟩ x vs ↔
      vs = [.integer x.toNat] ∨ vs = [] ∧ default = some x :=
  Kind.holds_iff .word16 (fun x : UInt16 => .integer x.toNat) fun _ _ =>
    Kind.read_word16_eq_ok_iff

theorem holds_word32_iff {default : Option UInt32} {x : UInt32} :
    Field.Holds ⟨name, .word32, default⟩ x vs ↔
      vs = [.integer x.toNat] ∨ vs = [] ∧ default = some x :=
  Kind.holds_iff .word32 (fun x : UInt32 => .integer x.toNat) fun _ _ =>
    Kind.read_word32_eq_ok_iff

theorem holds_id_iff {default : Option JobId} {x : JobId} :
    Field.Holds ⟨name, .id, default⟩ x vs ↔
      vs = [.integer x.word.toNat] ∨ vs = [] ∧ default = some x :=
  Kind.holds_iff .id (fun x : JobId => .integer x.word.toNat) fun _ _ => Kind.readId_eq_ok_iff

theorem holds_payload_iff {x : Json} :
    Field.Holds ⟨name, .payload, none⟩ x vs ↔ ∃ v, vs = [v] ∧ x = v.sorted := by
  simp [Field.Holds, Kind.read, eq_comm]

theorem gives_priority_iff {x : UInt16} :
    Gives 0 x.toNat vs ↔ vs = [.integer x.toNat] ∨ vs = [] ∧ some (0 : UInt16) = some x := by
  rw [Gives, Option.some_inj, eq_comm (b := x), ← UInt16.toNat_inj]
  rfl

theorem gives_taskCount_iff {x : UInt32} :
    Gives 1 x.toNat vs ↔ vs = [.integer x.toNat] ∨ vs = [] ∧ some (1 : UInt32) = some x := by
  rw [Gives, Option.some_inj, eq_comm (b := x), ← UInt32.toNat_inj]
  rfl

/-! ### Variants -/

variable {ms : List (String × Json)} {payload : Json} {priority : UInt16} {taskCount : UInt32}
  {id : JobId}

theorem holds_submitFields_iff :
    Record.Holds submitFields (payload, priority, taskCount, ()) ms ↔
      (∃ v, named "payload" ms = [v] ∧ payload = v.sorted) ∧
        Gives 0 priority.toNat (named "priority" ms) ∧
        Gives 1 taskCount.toNat (named "task-count" ms) := by
  rw [gives_priority_iff, gives_taskCount_iff]
  refine and_congr holds_payload_iff (and_congr holds_word16_iff ?_)
  exact (and_iff_left trivial).trans holds_word32_iff

theorem holds_cancelFields_iff :
    Record.Holds cancelFields (id, ()) ms ↔ named "id" ms = [.integer id.word.toNat] := by
  refine (and_iff_left trivial).trans (holds_id_iff.trans ?_)
  simp

theorem holds_cancelBelowFields_iff :
    Record.Holds cancelBelowFields (priority, ()) ms ↔
      named "priority" ms = [.integer priority.toNat] := by
  refine (and_iff_left trivial).trans (holds_word16_iff.trans ?_)
  simp

theorem represents_of_submitLists
    (h : Record.Lists submitFields (payload, priority, taskCount, ()) vs) :
    Represents (.array (.string "submit" :: vs)) (.submit payload priority taskCount) := by
  match vs, h with
  | [], ⟨hnone, _⟩ => cases hnone
  | [v], ⟨hpayload, hpriority, htaskCount, _⟩ =>
    cases hpayload
    cases hpriority
    cases htaskCount
    exact .payloadItem v
  | [v, w], ⟨hpayload, hpriority, htaskCount, _⟩ =>
    cases hpayload
    cases htaskCount
    rw [Kind.read_word16_eq_ok_iff.mp hpriority]
    exact .priorityItem v priority
  | [v, w, u], ⟨hpayload, hpriority, htaskCount, _⟩ =>
    cases hpayload
    rw [Kind.read_word16_eq_ok_iff.mp hpriority, Kind.read_word32_eq_ok_iff.mp htaskCount]
    exact .taskCountItem v priority taskCount
  | _ :: _ :: _ :: _ :: _, ⟨_, _, _, hmore⟩ => cases hmore

theorem represents_of_cancelLists (h : Record.Lists cancelFields (id, ()) vs) :
    Represents (.array (.string "cancel" :: vs)) (.cancel id) := by
  match vs, h with
  | [], ⟨hnone, _⟩ => cases hnone
  | [v], ⟨hid, _⟩ =>
    rw [Kind.readId_eq_ok_iff.mp hid]
    exact .cancelItems id
  | _ :: _ :: _, ⟨_, hmore⟩ => cases hmore

theorem represents_of_cancelBelowLists (h : Record.Lists cancelBelowFields (priority, ()) vs) :
    Represents (.array (.string "cancel-below" :: vs)) (.cancelBelow priority) := by
  match vs, h with
  | [], ⟨hnone, _⟩ => cases hnone
  | [v], ⟨hpriority, _⟩ =>
    rw [Kind.read_word16_eq_ok_iff.mp hpriority]
    exact .cancelBelowItems priority
  | _ :: _ :: _, ⟨_, hmore⟩ => cases hmore

theorem represents_of_schema {v : Json} {a : Action} (h : schema.Represents v a) :
    Represents v a := by
  cases h with
  | members hname hfind hr =>
    rename_i ms name variant r
    obtain ⟨hvariant, rfl⟩ := find?_eq_some_iff.mp hfind
    simp only [schema, List.mem_cons, List.not_mem_nil, or_false] at hvariant
    rcases hvariant with rfl | rfl | rfl
    · obtain ⟨payload, priority, taskCount, ⟨⟩⟩ := r
      obtain ⟨⟨v, hv, rfl⟩, hpriority, htaskCount⟩ := holds_submitFields_iff.mp hr
      exact .submit hname hv hpriority htaskCount
    · obtain ⟨id, ⟨⟩⟩ := r
      exact .cancel hname (holds_cancelFields_iff.mp hr)
    · obtain ⟨priority, ⟨⟩⟩ := r
      exact .cancelBelow hname (holds_cancelBelowFields_iff.mp hr)
  | items hfind hr =>
    rename_i vs name variant r
    obtain ⟨hvariant, rfl⟩ := find?_eq_some_iff.mp hfind
    simp only [schema, List.mem_cons, List.not_mem_nil, or_false] at hvariant
    rcases hvariant with rfl | rfl | rfl
    · obtain ⟨payload, priority, taskCount, ⟨⟩⟩ := r
      exact represents_of_submitLists hr
    · obtain ⟨id, ⟨⟩⟩ := r
      exact represents_of_cancelLists hr
    · obtain ⟨priority, ⟨⟩⟩ := r
      exact represents_of_cancelBelowLists hr

theorem schema_represents {v : Json} {a : Action} (h : Represents v a) :
    schema.Represents v a := by
  have hfind : ∀ variant ∈ schema.variants, schema.find? variant.name = some variant :=
    fun _ hvariant => find?_eq_some_iff.mpr ⟨hvariant, rfl⟩
  simp only [schema, List.forall_mem_cons] at hfind
  obtain ⟨hsubmit, hcancel, hcancelBelow, -⟩ := hfind
  cases h with
  | submit hname hpayload hpriority htaskCount =>
    exact .members hname hsubmit
      (holds_submitFields_iff.mpr ⟨⟨_, hpayload, rfl⟩, hpriority, htaskCount⟩)
  | cancel hname hid => exact .members hname hcancel (holds_cancelFields_iff.mpr hid)
  | cancelBelow hname hpriority =>
    exact .members hname hcancelBelow (holds_cancelBelowFields_iff.mpr hpriority)
  | payloadItem payload =>
    have hlists : Record.Lists submitFields (payload.sorted, (0 : UInt16), (1 : UInt32), ())
        [payload] := ⟨rfl, rfl, rfl, rfl⟩
    exact .items hsubmit hlists
  | priorityItem payload priority =>
    have hlists : Record.Lists submitFields (payload.sorted, priority, (1 : UInt32), ())
        [payload, .integer priority.toNat] :=
      ⟨rfl, Kind.read_word16_eq_ok_iff.mpr rfl, rfl, rfl⟩
    exact .items hsubmit hlists
  | taskCountItem payload priority taskCount =>
    have hlists : Record.Lists submitFields (payload.sorted, priority, taskCount, ())
        [payload, .integer priority.toNat, .integer taskCount.toNat] :=
      ⟨rfl, Kind.read_word16_eq_ok_iff.mpr rfl, Kind.read_word32_eq_ok_iff.mpr rfl, rfl⟩
    exact .items hsubmit hlists
  | cancelItems id =>
    have hlists : Record.Lists cancelFields (id, ()) [.integer id.word.toNat] :=
      ⟨Kind.readId_eq_ok_iff.mpr rfl, rfl⟩
    exact .items hcancel hlists
  | cancelBelowItems priority =>
    have hlists : Record.Lists cancelBelowFields (priority, ()) [.integer priority.toNat] :=
      ⟨Kind.read_word16_eq_ok_iff.mpr rfl, rfl⟩
    exact .items hcancelBelow hlists

theorem schema_represents_iff {v : Json} {a : Action} :
    schema.Represents v a ↔ Represents v a :=
  ⟨represents_of_schema, schema_represents⟩

/-- A text is read as an action exactly when it is the text of a value that stands for it, with at
most 127 brackets open at once. A number that is no integer is rounded in steps, which is nearly the
same as being taken to the nearest double. -/
theorem read_iff_represents : Literal.Approximate Literal.Rounded ∧
    ∀ text a, read text = .ok a ↔ ∃ v, IsText text v ∧ v.depth ≤ 127 ∧ Represents v a := by
  refine ⟨Literal.approximate_rounded, fun text a => ?_⟩
  rw [read, Schema.read_eq_ok_iff distinct_schema]
  simp only [schema_represents_iff]
  rfl

theorem isTextBy_belowOverflow {D : Literal → Magnitude → Prop} {m : Magnitude}
    (hm : D .belowOverflow m) : IsTextBy D "[\"submit\",17976931348623158e292]".toList
      (.array [.string "submit", .double ⟨false, m⟩]) := by
  have htag : DenotesBy D (Escaped.write "submit") (.string "submit") :=
    .string (Escaped.quoted_write "submit")
  have hnumber : DenotesBy D _ (.double ⟨false, m⟩) :=
    .number Literal.written_belowOverflow (.double (fun n hn => absurd hn.exponent_eq (by decide)) hm)
  exact .bare (.array (.some (.bare htag) (.cons (.bare hnumber) .nil)))

/-- With the nearest doubles the format is another one. A text in it is refused, where the steps
round up, and one that holds no finite number is taken, where they round down. -/
theorem read_misses_nearest :
    (∃ v a, IsTextBy Literal.Nearest "[\"submit\",17976931348623158e292]".toList v ∧
      v.depth ≤ 127 ∧ Represents v a) ∧
    (read "[\"submit\",17976931348623158e292]".toList).toOption = none ∧
    (read "[\"submit\",179769313486231581e291]".toList).isOk = true ∧
    Literal.aboveOverflow.Written "179769313486231581e291".toList ∧
    ∀ m, ¬ Literal.aboveOverflow.Nearest m :=
  ⟨⟨_, _, isTextBy_belowOverflow Literal.nearest_belowOverflow, by decide, .payloadItem _⟩,
    by decide +kernel, by decide +kernel, Literal.written_aboveOverflow,
    Literal.not_nearest_aboveOverflow⟩

/-- The tag may come at any place, its key may be escaped, and other members may stand beside. -/
example :
    read "\x7b \"priority\": 7, \"x\": [], \"act\\u0069on\": \"cancel-below\" \x7d".toList =
      .ok (.cancelBelow 7) := rfl

/-- A negative zero is no integer. -/
example : (read "[\"cancel\", -0]".toList).toOption = none := rfl

end Action
end PacedJobs
