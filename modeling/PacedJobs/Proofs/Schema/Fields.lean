import Mathlib.Data.List.Induction
import PacedJobs.Proofs.Json.Members
import PacedJobs.Proofs.Json.Strings
import PacedJobs.Schema.Field

/-!
# What records are read from

A record is read from members exactly when every field has its value once among them, or is absent
and has a default. It is read from elements exactly when they are the values of the fields in their
order, where only fields with defaults may be missing, and those at the end.
-/

namespace PacedJobs

open Json

namespace Kind

theorem readUnsigned_eq_ok_iff {bits : Nat} {name : String} {v : Json} {n : Nat} :
    readUnsigned bits name v = .ok n ↔ v = .integer n ∧ n < Nat.pow 2 bits := by
  unfold readUnsigned
  split
  next i =>
    split_ifs with h
    · obtain ⟨hlow, hhigh⟩ := h
      lift i to Nat using hlow
      have hhigh : i < Nat.pow 2 bits := by
        change (i : Int) < 2 ^ bits at hhigh
        exact_mod_cast hhigh
      simp only [Int.toNat_natCast, Except.ok.injEq, Json.integer.injEq, Int.natCast_inj]
      exact ⟨fun heq => ⟨heq, heq ▸ hhigh⟩, And.left⟩
    · simp only [Json.integer.injEq, false_iff]
      rintro ⟨rfl, hhigh⟩
      refine h ⟨Int.natCast_nonneg n, ?_⟩
      change (n : Int) < 2 ^ bits
      exact_mod_cast hhigh
  next hne =>
    simp only [reduceCtorEq, false_iff]
    rintro ⟨rfl, -⟩
    exact hne n rfl

variable {v : Json}

theorem read_word16_eq_ok_iff {x : UInt16} : word16.read v = .ok x ↔ v = .integer x.toNat := by
  simp only [read, map_eq_ok, readUnsigned_eq_ok_iff]
  constructor
  · rintro ⟨n, ⟨rfl, hn⟩, rfl⟩
    rw [UInt16.toNat_ofNat_of_lt' hn]
  · rintro rfl
    exact ⟨x.toNat, ⟨rfl, x.toNat_lt⟩, UInt16.ofNat_toNat⟩

theorem read_word32_eq_ok_iff {x : UInt32} : word32.read v = .ok x ↔ v = .integer x.toNat := by
  simp only [read, map_eq_ok, readUnsigned_eq_ok_iff]
  constructor
  · rintro ⟨n, ⟨rfl, hn⟩, rfl⟩
    rw [UInt32.toNat_ofNat_of_lt' hn]
  · rintro rfl
    exact ⟨x.toNat, ⟨rfl, x.toNat_lt⟩, UInt32.ofNat_toNat⟩

theorem readId_eq_ok_iff {x : JobId} : readId v = .ok x ↔ v = .integer x.word.toNat := by
  simp only [readId, map_eq_ok, readUnsigned_eq_ok_iff]
  constructor
  · rintro ⟨n, ⟨rfl, hn⟩, rfl⟩
    rw [UInt64.toNat_ofNat_of_lt' hn]
  · rintro rfl
    refine ⟨x.word.toNat, ⟨rfl, x.word.toNat_lt⟩, ?_⟩
    rw [UInt64.ofNat_toNat]

end Kind

/-- The field has the value among the values given for it, which are one at most. -/
def Field.Holds (f : Field) (x : f.kind.Carrier) (vs : List Json) : Prop :=
  (∃ v, vs = [v] ∧ f.kind.read v = .ok x) ∨ vs = [] ∧ f.default = some x

/-- Where every value of a kind is read from one document value only. -/
theorem Kind.holds_iff (kind : Kind) (document : kind.Carrier → Json)
    (hread : ∀ v x, kind.read v = .ok x ↔ v = document x) {name : String}
    {default : Option kind.Carrier} {x : kind.Carrier} {vs : List Json} :
    Field.Holds ⟨name, kind, default⟩ x vs ↔ vs = [document x] ∨ vs = [] ∧ default = some x := by
  refine or_congr_left ?_
  simp only [hread, exists_eq_right]

/-- The members are read so far as the slot of the field says. -/
def Field.Fills (f : Field) (slot : Option f.kind.Carrier) (vs : List Json) : Prop :=
  match slot with
  | none => vs = []
  | some x => ∃ v, vs = [v] ∧ f.kind.read v = .ok x

theorem Field.holds_iff {f : Field} {x : f.kind.Carrier} {vs : List Json} :
    f.Holds x vs ↔ ∃ slot, f.Fills slot vs ∧ (slot <|> f.default) = some x := by
  constructor
  · rintro (⟨v, rfl, hx⟩ | ⟨rfl, hx⟩)
    · exact ⟨some x, ⟨v, rfl, hx⟩, rfl⟩
    · exact ⟨none, rfl, hx⟩
  · rintro ⟨slot, hslot, hx⟩
    cases slot with
    | none => exact .inr ⟨hslot, hx⟩
    | some y =>
      cases hx
      exact .inl hslot

/-- Every field has its value among the members. -/
def Record.Holds : (fs : List Field) → Record fs → List (String × Json) → Prop
  | [], (), _ => True
  | f :: fs, (x, r), ms => f.Holds x (named f.name ms) ∧ Record.Holds fs r ms

/-- The elements are the values of the fields, and the defaults of those at the end. -/
def Record.Lists : (fs : List Field) → Record fs → List Json → Prop
  | [], (), vs => vs = []
  | f :: fs, (x, r), v :: vs => f.kind.read v = .ok x ∧ Record.Lists fs r vs
  | f :: fs, (x, r), [] => f.default = some x ∧ Record.Lists fs r []

namespace Slots

def Filled : (fs : List Field) → Slots fs → List (String × Json) → Prop
  | [], (), _ => True
  | f :: fs, (slot, slots), ms => f.Fills slot (named f.name ms) ∧ Filled fs slots ms

theorem filled_nil_iff : ∀ {fs : List Field} {slots : Slots fs},
    Filled fs slots [] ↔ slots = empty fs
  | [], () => ⟨fun _ => rfl, fun _ => trivial⟩
  | f :: fs, (slot, slots) => by
    constructor
    · rintro ⟨hslot, hslots⟩
      rw [filled_nil_iff.mp hslots]
      cases slot with
      | none => rfl
      | some x =>
        obtain ⟨v, hv, -⟩ := hslot
        cases hv
    · intro h
      cases h
      exact ⟨rfl, filled_nil_iff.mpr rfl⟩

section

variable {f : Field} {fs : List Field} {slot : Option f.kind.Carrier} {slots : Slots fs}
  {ms : List (String × Json)} {k : String} {v : Json}

theorem put_cons_of_ne (h : k ≠ f.name) : put k v (f :: fs) (slot, slots) =
    (put k v fs slots).map fun slots => (slot, slots) :=
  if_neg h

theorem put_cons_none : put f.name v (f :: fs) (none, slots) =
    (f.kind.read v).map fun x => (some x, slots) :=
  if_pos rfl

theorem put_cons_some (x : f.kind.Carrier) : put f.name v (f :: fs) (some x, slots) =
    .error (.duplicateField f.name) :=
  if_pos rfl

end

theorem filled_append_iff_of_notMem {k : String} {v : Json} {ms : List (String × Json)} :
    ∀ {fs : List Field} {slots : Slots fs}, k ∉ fs.map Field.name →
      (Filled fs slots (ms ++ [(k, v)]) ↔ Filled fs slots ms)
  | [], (), _ => Iff.rfl
  | f :: fs, (slot, slots), h => by
    obtain ⟨hf, hfs⟩ := not_or.mp (List.mem_cons.not.mp h)
    refine and_congr ?_ (filled_append_iff_of_notMem hfs)
    rw [named_append, named_cons_of_ne hf, named_nil, List.append_nil]

/-- What has been read with one more member is what was read before and put with it. -/
theorem filled_append_iff {k : String} {v : Json} {ms : List (String × Json)} :
    ∀ {fs : List Field} {slots' : Slots fs}, (fs.map Field.name).Nodup →
      (Filled fs slots' (ms ++ [(k, v)]) ↔
        ∃ slots, Filled fs slots ms ∧ put k v fs slots = .ok slots')
  | [], (), _ => ⟨fun _ => ⟨(), trivial, rfl⟩, fun _ => trivial⟩
  | f :: fs, (slot', slots'), hnodup => by
    obtain ⟨hf, hfs⟩ := List.nodup_cons.mp hnodup
    by_cases hk : k = f.name
    · subst hk
      constructor
      · rintro ⟨hslot, hslots⟩
        rw [filled_append_iff_of_notMem hf] at hslots
        rw [named_append, named_cons_self, named_nil] at hslot
        cases slot' with
        | none => simp [Field.Fills] at hslot
        | some x =>
          obtain ⟨v', hv', hx⟩ := hslot
          obtain ⟨hnamed, rfl⟩ : named f.name ms = [] ∧ v = v' := by
            simpa [List.append_eq_singleton_iff] using hv'
          refine ⟨(none, slots'), ⟨hnamed, hslots⟩, ?_⟩
          rw [put_cons_none, hx]
          rfl
      · rintro ⟨⟨slot, slots⟩, ⟨hslot, hslots⟩, hput⟩
        cases slot with
        | some x => cases (put_cons_some x).symm.trans hput
        | none =>
          rw [put_cons_none] at hput
          obtain ⟨x, hx, heq⟩ := map_eq_ok.mp hput
          cases heq
          refine ⟨⟨v, ?_, hx⟩, (filled_append_iff_of_notMem hf).mpr hslots⟩
          rw [named_append, named_cons_self, named_nil, hslot]
          rfl
    · have hnamed : named f.name (ms ++ [(k, v)]) = named f.name ms := by
        rw [named_append, named_cons_of_ne hk, named_nil, List.append_nil]
      constructor
      · rintro ⟨hslot, hslots⟩
        rw [hnamed] at hslot
        obtain ⟨slots, hfilled, hput⟩ := (filled_append_iff hfs).mp hslots
        refine ⟨(slot', slots), ⟨hslot, hfilled⟩, ?_⟩
        rw [put_cons_of_ne hk, hput]
        rfl
      · rintro ⟨⟨slot, slots⟩, ⟨hslot, hslots⟩, hput⟩
        rw [put_cons_of_ne hk] at hput
        obtain ⟨slots'', hput', heq⟩ := map_eq_ok.mp hput
        cases heq
        exact ⟨hnamed.symm ▸ hslot, (filled_append_iff hfs).mpr ⟨slots, hslots, hput'⟩⟩

theorem foldlM_put_eq_ok_iff {fs : List Field} (hnodup : (fs.map Field.name).Nodup)
    {ms : List (String × Json)} {slots : Slots fs} :
    ms.foldlM (fun slots m => put m.1 m.2 fs slots) (empty fs) = .ok slots ↔
      Filled fs slots ms := by
  induction ms using List.reverseRecOn generalizing slots with
  | nil =>
    rw [filled_nil_iff]
    exact ⟨fun h => (Except.ok.inj h).symm, fun h => congrArg Except.ok h.symm⟩
  | append_singleton ms m ih =>
    rw [List.foldlM_append, bind_eq_ok, filled_append_iff hnodup]
    refine exists_congr fun slots' => ?_
    rw [ih]
    simp

theorem complete_cons {f : Field} {fs : List Field} {slot : Option f.kind.Carrier}
    {slots : Slots fs} {x : f.kind.Carrier} (h : (slot <|> f.default) = some x) :
    complete (f :: fs) (slot, slots) = (complete fs slots).map fun r => (x, r) := by
  refine (Slots.complete.eq_2 f fs slot slots).trans ?_
  rw [h]
  rfl

theorem complete_cons_none {f : Field} {fs : List Field} {slot : Option f.kind.Carrier}
    {slots : Slots fs} (h : (slot <|> f.default) = none) :
    complete (f :: fs) (slot, slots) = .error (.missingField f.name) := by
  refine (Slots.complete.eq_2 f fs slot slots).trans ?_
  rw [h]
  rfl

theorem complete_eq_ok_iff {ms : List (String × Json)} :
    ∀ {fs : List Field} {r : Record fs},
      (∃ slots, Filled fs slots ms ∧ complete fs slots = .ok r) ↔ Record.Holds fs r ms
  | [], () => ⟨fun _ => trivial, fun _ => ⟨(), trivial, rfl⟩⟩
  | f :: fs, (x, r) => by
    constructor
    · rintro ⟨⟨slot, slots⟩, ⟨hslot, hslots⟩, hcomplete⟩
      cases hx : slot <|> f.default with
      | none => cases (complete_cons_none hx).symm.trans hcomplete
      | some y =>
        rw [complete_cons hx] at hcomplete
        obtain ⟨r', hr, heq⟩ := map_eq_ok.mp hcomplete
        cases heq
        exact ⟨f.holds_iff.mpr ⟨slot, hslot, hx⟩, complete_eq_ok_iff.mp ⟨slots, hslots, hr⟩⟩
    · rintro ⟨hx, hr⟩
      obtain ⟨slot, hslot, hx⟩ := f.holds_iff.mp hx
      obtain ⟨slots, hfilled, hcomplete⟩ := complete_eq_ok_iff.mpr hr
      refine ⟨(slot, slots), ⟨hslot, hfilled⟩, ?_⟩
      rw [complete_cons hx, hcomplete]
      rfl

end Slots

namespace Record

theorem ofMembers_eq_ok_iff {fs : List Field} (hnodup : (fs.map Field.name).Nodup)
    {r : Record fs} {ms : List (String × Json)} : ofMembers fs ms = .ok r ↔ Holds fs r ms := by
  rw [ofMembers, bind_eq_ok, ← Slots.complete_eq_ok_iff]
  refine exists_congr fun slots => ?_
  rw [Slots.foldlM_put_eq_ok_iff hnodup]

theorem holds_congr {ms ns : List (String × Json)} : ∀ {fs : List Field} {r : Record fs},
    (∀ f ∈ fs, named f.name ms = named f.name ns) → (Holds fs r ms ↔ Holds fs r ns)
  | [], (), _ => Iff.rfl
  | f :: fs, (x, r), h => by
    obtain ⟨hf, hfs⟩ := List.forall_mem_cons.mp h
    rw [Holds, Holds, hf, holds_congr hfs]

variable {expected : String}

theorem ofLeading_eq_ok_iff : ∀ (count : Nat) {fs : List Field} {r : Record fs} {vs : List Json},
    ofLeading expected count fs vs = .ok (r, []) ↔ Lists fs r vs
  | count, [], (), vs =>
    ⟨fun h => congrArg Prod.snd (Except.ok.inj h), fun h => by rw [show vs = [] from h]; rfl⟩
  | count, f :: fs, (x, r), v :: vs => by
    rw [ofLeading, bind_eq_ok, Lists, ← ofLeading_eq_ok_iff (count + 1)]
    constructor
    · rintro ⟨x', hx, hmore⟩
      obtain ⟨⟨r', rest⟩, hr, heq⟩ := bind_eq_ok.mp hmore
      cases heq
      exact ⟨hx, hr⟩
    · rintro ⟨hx, hr⟩
      exact ⟨x, hx, by rw [hr]; rfl⟩
  | count, f :: fs, (x, r), [] => by
    rw [ofLeading, Lists, ← ofLeading_eq_ok_iff (count + 1)]
    cases hdefault : f.default with
    | none => simp [throw, throwThe, MonadExceptOf.throw]
    | some y =>
      constructor
      · intro h
        obtain ⟨⟨r', rest⟩, hr, heq⟩ := bind_eq_ok.mp h
        cases heq
        exact ⟨rfl, hr⟩
      · rintro ⟨hx, hr⟩
        cases hx
        dsimp only
        rw [hr]
        rfl

theorem ofItems_eq_ok_iff {owner : String} {fs : List Field} {r : Record fs} {vs : List Json} :
    ofItems owner fs vs = .ok r ↔ Lists fs r vs := by
  rw [ofItems, bind_eq_ok, ← ofLeading_eq_ok_iff 0]
  constructor
  · rintro ⟨⟨r', rest⟩, hleading, h⟩
    cases rest with
    | nil =>
      cases h
      exact hleading
    | cons v rest => cases h
  · intro h
    exact ⟨(r, []), h, rfl⟩

end Record
end PacedJobs
