import PacedJobs.Proofs.Action.RoundTrip
import PacedJobs.Reply

/-!
# Replies that are written and read again

A reply is read from its written form as it was, but for a result that is null, which is read as
absent. It is written as the member that it is, so no two replies have one text: what the reader
takes for the same was told apart by the writer. Results are read while their brackets leave room
for that of the reply.
-/

namespace PacedJobs

open Json

namespace Kind

variable {v : Json}

theorem read_size_eq_ok_iff {x : UInt64} : size.read v = .ok x ↔ v = .integer x.toNat := by
  simp only [read, map_eq_ok, readUnsigned_eq_ok_iff]
  constructor
  · rintro ⟨n, ⟨rfl, hn⟩, rfl⟩
    rw [UInt64.toNat_ofNat_of_lt' hn]
  · rintro rfl
    exact ⟨x.toNat, ⟨rfl, x.toNat_lt⟩, UInt64.ofNat_toNat⟩

theorem read_ids (ids : List JobId) : Kind.ids.read (.array (ids.map Reply.idJson)) = .ok ids := by
  have hids : (ids.map Reply.idJson).mapM readId = .ok ids := by
    induction ids with
    | nil => rfl
    | cons id ids ih =>
      have hid : readId (Reply.idJson id) = .ok id := readId_eq_ok_iff.mpr rfl
      simp [List.mapM_cons, hid, ih, pure, Except.pure]
  exact hids

end Kind

namespace Reply

/-- The value, unless it is null. -/
def present : Json → Option Json
  | .null => none
  | v => some v

/-- The value of a result has the property, if there is one. -/
def OfValue (P : Json → Prop) : Reply → Prop
  | result _ (some v) _ => P v
  | _ => True

/-- The reply with a null result left out. -/
def withoutNull : Reply → Reply
  | result id ok error => result id (ok.bind present) error
  | r => r

variable {r r' : Reply}

theorem OfValue.imp {P Q : Json → Prop} (h : r.OfValue P) (himp : ∀ v, P v → Q v) :
    r.OfValue Q := by
  cases r with
  | result id ok error =>
    cases ok with
    | none => trivial
    | some v => exact himp v h
  | _ => trivial

theorem present_eq {v : Json} (h : v ≠ .null) : present v = some v := by
  cases v with
  | null => exact absurd rfl h
  | _ => rfl

theorem withoutNull_eq (h : r.OfValue (· ≠ .null)) : r.withoutNull = r := by
  cases r with
  | result id ok error =>
    cases ok with
    | none => rfl
    | some v => rw [withoutNull, Option.bind_some, present_eq h]
  | _ => rfl

theorem distinct_schema : schema.Distinct := by
  intro variant hvariant
  simp only [schema, List.mem_cons, List.not_mem_nil, or_false] at hvariant
  rcases hvariant with rfl | rfl | rfl | rfl | rfl <;> decide

/-! ### The members of a reply -/

theorem read_optionalPayload {v : Json} (h : v.Ordered) :
    Kind.optionalPayload.read v = .ok (present v) := by
  have hsorted := sorted_of_ordered v h
  cases v <;> simp only [Kind.read, present, hsorted]

theorem holds_ok {id : JobId} {ok : Option Json} {error : Option String}
    (h : (result id ok error).OfValue Ordered) :
    Field.Holds ⟨"ok", .optionalPayload, some none⟩ (ok.bind present)
      (named "ok" (result id ok error).members) := by
  cases ok with
  | none => cases error <;> exact .inr ⟨by simp [members, named], rfl⟩
  | some v =>
    cases error <;> exact .inl ⟨v, by simp [members, named], read_optionalPayload h⟩

theorem holds_error {id : JobId} {ok : Option Json} {error : Option String} :
    Field.Holds ⟨"error", .optionalText, some none⟩ error
      (named "error" (result id ok error).members) := by
  cases error with
  | none => cases ok <;> exact .inr ⟨by simp [members, named], rfl⟩
  | some s => cases ok <;> exact .inl ⟨.string s, by simp [members, named], rfl⟩

theorem find?_name {variant : Variant Reply} (h : variant ∈ schema.variants) :
    schema.find? variant.name = some variant := by
  simp only [schema, List.mem_cons, List.not_mem_nil, or_false] at h
  rcases h with rfl | rfl | rfl | rfl | rfl <;> rfl

/-- The members stand for the reply, in which a result that is null counts as absent. -/
theorem represents_members (h : r.OfValue Ordered) :
    schema.Represents (.object r.members) r.withoutNull := by
  have hfind : ∀ variant ∈ schema.variants, schema.find? variant.name = some variant :=
    fun _ => find?_name
  simp only [schema, List.forall_mem_cons] at hfind
  obtain ⟨hsubmitted, hcancelled, hcancelledBelow, hresult, hrejected, -⟩ := hfind
  cases r with
  | submitted id =>
    have hr : Record.Holds submittedFields (id, ()) (submitted id).members :=
      ⟨.inl ⟨idJson id, by simp [members, named], Kind.readId_eq_ok_iff.mpr rfl⟩, trivial⟩
    exact .members rfl hsubmitted hr
  | cancelled id removed =>
    have hr : Record.Holds cancelledFields (id, removed, ()) (cancelled id removed).members :=
      ⟨.inl ⟨idJson id, by simp [members, named], Kind.readId_eq_ok_iff.mpr rfl⟩,
        .inl ⟨.bool removed, by simp [members, named], rfl⟩, trivial⟩
    exact .members rfl hcancelled hr
  | cancelledBelow priority ids =>
    have hr : Record.Holds cancelledBelowFields (priority, ids, ())
        (cancelledBelow priority ids).members :=
      ⟨.inl ⟨.integer priority.toNat, by simp [members, named],
          Kind.read_word16_eq_ok_iff.mpr rfl⟩,
        .inl ⟨.array (ids.map idJson), by simp [members, named], Kind.read_ids ids⟩, trivial⟩
    exact .members rfl hcancelledBelow hr
  | result id ok error =>
    have hid : named "id" (result id ok error).members = [idJson id] := by
      cases ok <;> cases error <;> simp [members, named]
    have hr : Record.Holds resultFields (id, ok.bind present, error, ())
        (result id ok error).members :=
      ⟨.inl ⟨idJson id, hid, Kind.readId_eq_ok_iff.mpr rfl⟩, holds_ok h, holds_error, trivial⟩
    have hname : named "event" (result id ok error).members = [.string "result"] := by
      cases ok <;> cases error <;> simp [members, named]
    exact .members hname hresult hr
  | rejected line message =>
    have hr : Record.Holds rejectedFields (line, message, ()) (rejected line message).members :=
      ⟨.inl ⟨.integer line.toNat, by simp [members, named], Kind.read_size_eq_ok_iff.mpr rfl⟩,
        .inl ⟨.string message, by simp [members, named], rfl⟩, trivial⟩
    exact .members rfl hrejected hr

/-- What holds of all that replies are made of holds of all members if it holds of the result. -/
theorem forall_mem_members_iff {P : Json → Prop} (htext : ∀ s, P (.string s))
    (hflag : ∀ b, P (.bool b)) (hnumber : ∀ n : UInt64, P (.integer n.toNat))
    (hids : ∀ ids : List JobId, P (.array (ids.map idJson))) :
    (∀ m ∈ r.members, P m.2) ↔ r.OfValue P := by
  cases r with
  | submitted id => simp [members, OfValue, idJson, htext, hnumber]
  | cancelled id removed => simp [members, OfValue, idJson, htext, hnumber, hflag]
  | cancelledBelow priority ids =>
    have hpriority := hnumber priority.toUInt64
    rw [UInt16.toNat_toUInt64] at hpriority
    simp [members, OfValue, htext, hpriority, hids]
  | result id ok error =>
    cases ok <;> cases error <;> simp [members, OfValue, idJson, htext, hnumber]
  | rejected line message => simp [members, OfValue, htext, hnumber]

theorem integral_members (h : r.OfValue Integral) : (Json.object r.members).Integral := by
  have hnumber : ∀ n : UInt64, (Json.integer n.toNat).Integral :=
    fun n => Action.fits_of_lt n.toNat_lt
  have hids : ∀ ids : List JobId, (Json.array (ids.map idJson)).Integral := by
    refine fun ids => ⟨trivial, allItems_iff.mpr fun v hv => ?_⟩
    obtain ⟨id, -, rfl⟩ := List.mem_map.mp hv
    exact hnumber id.word
  refine ⟨trivial, allMembers_iff.mpr ?_⟩
  exact (forall_mem_members_iff (fun _ => trivial) (fun _ => trivial) hnumber hids).mpr h

/-- A reply opens one bracket more than its result. A list of names opens one, too. -/
theorem depth_members_le_iff {d : Nat} (hd : 1 ≤ d) :
    (Json.object r.members).depth ≤ d + 1 ↔ r.OfValue fun v => v.depth ≤ d := by
  have hids : ∀ ids : List JobId, (Json.array (ids.map idJson)).depth ≤ d := by
    refine fun ids => (Nat.succ_le_succ (itemsDepth_le_iff.mpr fun v hv => ?_)).trans hd
    obtain ⟨id, -, rfl⟩ := List.mem_map.mp hv
    exact le_rfl
  have hscalar : ∀ {v : Json}, v.depth = 0 → v.depth ≤ d := fun hv => hv.trans_le (Nat.zero_le d)
  rw [depth, Nat.succ_le_succ_iff, membersDepth_le_iff]
  exact forall_mem_members_iff (P := fun v => v.depth ≤ d) (fun _ => hscalar rfl)
    (fun _ => hscalar rfl) (fun _ => hscalar rfl) hids

@[simp] theorem idJson_inj {id id' : JobId} : idJson id = idJson id' ↔ id = id' := by
  obtain ⟨word⟩ := id
  obtain ⟨word'⟩ := id'
  simp [idJson, UInt64.toNat_inj]

theorem members_injective : Function.Injective members := by
  intro r r' h
  cases r with
  | submitted id => cases r' <;> simp_all [members]
  | cancelled id removed => cases r' <;> simp_all [members]
  | cancelledBelow priority ids =>
    cases r' with
    | cancelledBelow priority' ids' =>
      have hinjective : Function.Injective idJson := fun _ _ => idJson_inj.mp
      simp only [members, List.cons.injEq, Prod.mk.injEq, true_and, and_true, Json.integer.injEq,
        Json.array.injEq, Int.natCast_inj, UInt16.toNat_inj,
        (List.map_injective_iff.mpr hinjective).eq_iff] at h
      rw [h.1, h.2]
    | _ => simp [members] at h
  | result id ok error =>
    cases r' with
    | result id' ok' error' =>
      cases ok <;> cases error <;> cases ok' <;> cases error' <;> simp_all [members]
    | _ => simp [members] at h
  | rejected line message =>
    cases r' with
    | rejected line' message' => simp_all [members, UInt64.toNat_inj]
    | _ => simp [members] at h

/-! ### Written forms -/

theorem isText_write (h : r.OfValue Integral) : IsText r.write (.object r.members) :=
  isText_compact (integral_members h)

/-- No two replies have one text, however deep their results are. -/
theorem write_inj (h : r.OfValue Integral) (h' : r'.OfValue Integral) :
    r.write = r'.write ↔ r = r' := by
  refine ⟨fun heq => ?_, congrArg write⟩
  have hmembers := (isText_write h).unique (heq ▸ isText_write h')
  exact members_injective (Json.object.inj hmembers)

/-- A reply that is written is read again, unless it is too deep. -/
theorem read_write_eq_ok_iff (hordered : r.OfValue Ordered) (hintegral : r.OfValue Integral)
    {x : Reply} :
    read r.write = .ok x ↔ x = r.withoutNull ∧ r.OfValue fun v => v.depth ≤ 126 := by
  have htext := isText_write hintegral
  have hdepth := depth_members_le_iff (r := r) (d := 126) (by decide)
  have hself : (Json.object r.members).depth ≤ 127 → read r.write = .ok r.withoutNull :=
    fun hlimit => (Schema.read_eq_ok_iff distinct_schema).mpr
      ⟨_, htext, hlimit, represents_members hordered⟩
  constructor
  · intro hx
    obtain ⟨v, hv, hlimit, -⟩ := (Schema.read_eq_ok_iff distinct_schema).mp hx
    cases htext.unique hv
    exact ⟨Except.ok.inj (hx.symm.trans (hself hlimit)), hdepth.mp hlimit⟩
  · rintro ⟨rfl, hlimit⟩
    exact hself (hdepth.mpr hlimit)

theorem read_write (h : r.OfValue Storable) : read r.write = .ok r.withoutNull :=
  (read_write_eq_ok_iff (h.imp fun _ => Storable.ordered) (h.imp fun _ => Storable.integral)).mpr
    ⟨rfl, h.imp fun _ => Storable.depth_le⟩

/-- Two replies that differ by a null result and nothing else. -/
def DifferByNull : Reply → Reply → Prop
  | result id ok error, result id' ok' error' =>
    id = id' ∧ error = error' ∧ (ok = none ∧ ok' = some .null ∨ ok = some .null ∧ ok' = none)
  | _, _ => False

theorem present_eq_none_iff {v : Json} : present v = none ↔ v = .null := by
  cases v <;> simp [present]

theorem bind_present_inj {ok ok' : Option Json} (h : ok.bind present = ok'.bind present) :
    ok = ok' ∨ ok = none ∧ ok' = some .null ∨ ok = some .null ∧ ok' = none := by
  cases ok with
  | none =>
    cases ok' with
    | none => exact .inl rfl
    | some w => exact .inr (.inl ⟨rfl, congrArg some (present_eq_none_iff.mp h.symm)⟩)
  | some v =>
    cases ok' with
    | none => exact .inr (.inr ⟨congrArg some (present_eq_none_iff.mp h), rfl⟩)
    | some w =>
      refine .inl (congrArg some ?_)
      rw [Option.bind_some, Option.bind_some] at h
      by_cases hv : v = .null
      · rw [hv, present, eq_comm, present_eq_none_iff] at h
        rw [hv, h]
      · rw [present_eq hv] at h
        cases w <;> first | exact Option.some.inj h | cases h

theorem eq_or_differByNull (h : r.withoutNull = r'.withoutNull) :
    r = r' ∨ DifferByNull r r' := by
  cases r with
  | result id ok error =>
    cases r' with
    | result id' ok' error' =>
      simp only [withoutNull, Reply.result.injEq] at h
      obtain ⟨rfl, hok, rfl⟩ := h
      exact (bind_present_inj hok).imp (fun heq => by rw [heq]) fun hnull => ⟨rfl, rfl, hnull⟩
    | _ => cases h
  | _ => cases r' <;> first | exact .inl h | cases h

/-- A reply that is written is read as itself, but for a result that is null, which is read as
absent. No two replies have one text, so nothing else is lost in reading. -/
theorem round_trip_but_null :
    (∀ r : Reply, r.OfValue Storable → r.OfValue (· ≠ .null) → read r.write = .ok r) ∧
    (∀ id error, read (result id (some .null) error).write = .ok (result id none error)) ∧
    (∀ r r' : Reply, r.OfValue Integral → r'.OfValue Integral → r.write = r'.write → r = r') ∧
    ∀ r r' : Reply, r.OfValue Storable → r'.OfValue Storable → read r.write = read r'.write →
      r = r' ∨ DifferByNull r r' := by
  refine ⟨fun r h hnull => ?_, fun id error => ?_, fun r r' h h' => (write_inj h h').mp, ?_⟩
  · rw [read_write h, withoutNull_eq hnull]
  · exact read_write (r := result id (some .null) error) ⟨trivial, trivial, Nat.zero_le _⟩
  · intro r r' h h' heq
    rw [read_write h, read_write h'] at heq
    exact eq_or_differByNull (Except.ok.inj heq)

/-- A result with a null in it, and the largest integer, beside an error with an escape. -/
def nestedResult : Reply :=
  result ⟨7⟩ (some (.array [.object [("ü", .null)], .integer 18446744073709551615])) (some "\t")

theorem round_trip_but_null_nestedResult :
    nestedResult.OfValue Storable ∧ nestedResult.OfValue (· ≠ .null) ∧
      read nestedResult.write = .ok nestedResult ∧
      (result ⟨7⟩ (some .null) none).write ≠ (result ⟨7⟩ none none).write ∧
      DifferByNull (result ⟨7⟩ (some .null) none) (result ⟨7⟩ none none) := by
  have hstorable : nestedResult.OfValue Storable := by
    refine ⟨⟨trivial, ⟨List.pairwise_singleton _ _, trivial, trivial⟩, trivial, trivial⟩,
      ⟨trivial, ⟨trivial, trivial, trivial⟩, ?_, trivial⟩, by decide⟩
    exact fits_iff.mpr (by decide)
  have hpresent : nestedResult.OfValue (· ≠ .null) := Json.noConfusion
  have hnull : (result ⟨7⟩ (some .null) none).OfValue Storable := ⟨trivial, trivial, Nat.zero_le _⟩
  have habsent : (result ⟨7⟩ none none).OfValue Storable := trivial
  have hread : read (result ⟨7⟩ (some .null) none).write = read (result ⟨7⟩ none none).write := by
    rw [round_trip_but_null.2.1 ⟨7⟩ none, round_trip_but_null.1 _ habsent trivial]
  have hne : result ⟨7⟩ (some .null) none ≠ result ⟨7⟩ none none := by simp
  refine ⟨hstorable, hpresent, round_trip_but_null.1 _ hstorable hpresent, fun heq => hne ?_, ?_⟩
  · exact round_trip_but_null.2.2.1 _ _ trivial trivial heq
  · exact (round_trip_but_null.2.2.2 _ _ hnull habsent hread).resolve_left hne

end Reply
end PacedJobs
