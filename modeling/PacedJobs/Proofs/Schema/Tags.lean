import PacedJobs.Proofs.Json.Values
import PacedJobs.Proofs.Schema.Fields
import PacedJobs.Schema.Tagged

/-!
# What tagged values are read from

The reader of tagged values takes them in one pass, in which the tag may come at any place. It
gives what one gets by reading the text as a plain value first and then looking for the tag and the
fields in it. So it takes exactly the texts of those values that have a tag and its fields.
-/

namespace PacedJobs

open Json

namespace Schema

variable {α : Type} (schema : Schema α)

/-- The names of fields are told apart, from each other and from the tag. -/
def Distinct : Prop :=
  ∀ variant ∈ schema.variants,
    (variant.fields.map Field.name).Nodup ∧ schema.tag ∉ variant.fields.map Field.name

/-- What a member counts as, and whether the tag has come with it. -/
def place (seen : Bool) : String × Json → Option (Part α × Bool)
  | (k, v) =>
    if k = schema.tag then
      match seen, v with
      | false, .string name => (schema.find? name).map fun variant => (.tag variant, true)
      | _, _ => none
    else some (.member k v, seen)

/-- The variant and the content of a plain value. -/
inductive Splits : Json → Variant α → Content → Prop
  | members {ms : List (String × Json)} {name : String} {variant : Variant α} :
      named schema.tag ms = [.string name] → schema.find? name = some variant →
      Splits (.object ms) variant (.members (ms.filter (·.1 ≠ schema.tag)))
  | items {vs : List Json} {name : String} {variant : Variant α} :
      schema.find? name = some variant →
      Splits (.array (.string name :: vs)) variant (.items vs)

/-- A plain value stands for a value of the schema: the tag names a variant, and the members or the
elements besides hold its fields. -/
inductive Represents : Json → α → Prop
  | members {ms : List (String × Json)} {name : String} {variant : Variant α}
      {r : Record variant.fields} : named schema.tag ms = [.string name] →
      schema.find? name = some variant → Record.Holds variant.fields r ms →
      Represents (.object ms) (variant.build r)
  | items {vs : List Json} {name : String} {variant : Variant α} {r : Record variant.fields} :
      schema.find? name = some variant → Record.Lists variant.fields r vs →
      Represents (.array (.string name :: vs)) (variant.build r)

variable {schema} {bound : Nat} {s rest : List Char} {variant : Variant α}

theorem readTag_eq_ok_iff (d : Nat) : schema.readTag bound s = .ok (variant, rest) ↔
    ∃ name, Reader.value bound (d + 1) s = .ok (.string name, rest) ∧
      schema.find? name = some variant := by
  have hvalue : ∀ name, Reader.value bound (d + 1) s = .ok (.string name, rest) ↔
      Reader.Scalar (Reader.skipSpace s) ∧
        Reader.readScalar bound (Reader.skipSpace s) = .ok (.string name, rest) := by
    intro name
    rw [Reader.value_succ_eq_ok_iff]
    simp
  simp only [hvalue]
  unfold readTag
  constructor
  · intro h
    dsimp only at h
    split at h
    · cases h
    · cases h
    next hbracket hbrace =>
      obtain ⟨⟨v, s'⟩, hscalar, hfind⟩ := bind_eq_ok.mp h
      split at hfind
      next name s'' heq =>
        cases heq
        split at hfind
        next variant' hvariant =>
          cases hfind
          exact ⟨name, ⟨Reader.scalar_of_ne hbracket hbrace, hscalar⟩, hvariant⟩
        · cases hfind
      · cases hfind
  · rintro ⟨name, ⟨hscalar, hread⟩, hfind⟩
    dsimp only
    split
    next hskip => exact absurd rfl (hscalar '[' (by rw [hskip]; rfl)).1
    next hskip => exact absurd rfl (hscalar '\x7b' (by rw [hskip]; rfl)).2
    next => simp [hread, hfind, pure, Except.pure]

theorem readMember_eq_ok_iff {item : List Char → Except Fault (Json × List Char)} {k : String}
    {m : String × Json} : Reader.readMember item k s = .ok (m, rest) ↔
      ∃ s', Reader.readColon s = .ok s' ∧ item s' = .ok (m.2, rest) ∧ m.1 = k := by
  rw [Reader.readMember, bind_eq_ok]
  refine exists_congr fun s' => and_congr_right fun _ => ?_
  rw [bind_eq_ok]
  constructor
  · rintro ⟨⟨v, s''⟩, hitem, hm⟩
    cases hm
    exact ⟨hitem, rfl⟩
  · rintro ⟨hitem, rfl⟩
    exact ⟨_, hitem, rfl⟩

theorem place_tag_eq_some_iff {seen : Bool} {v : Json} {part : Part α × Bool} :
    schema.place seen (schema.tag, v) = some part ↔
      ∃ name variant, seen = false ∧ v = .string name ∧ schema.find? name = some variant ∧
        part = (.tag variant, true) := by
  unfold place
  dsimp only
  rw [if_pos rfl]
  split
  next name =>
    rw [Option.map_eq_some_iff]
    constructor
    · rintro ⟨variant, hfind, rfl⟩
      exact ⟨name, variant, rfl, rfl, hfind, rfl⟩
    · rintro ⟨name', variant, -, hname, hfind, rfl⟩
      cases hname
      exact ⟨variant, hfind, rfl⟩
  next hne =>
    simp only [reduceCtorEq, false_iff]
    rintro ⟨name, -, rfl, rfl, -⟩
    exact hne name rfl rfl

theorem place_of_ne {seen : Bool} {k : String} (hk : k ≠ schema.tag) (v : Json) :
    schema.place seen (k, v) = some (.member k v, seen) :=
  if_neg hk

/-- The reader of members reads them as plain ones and says what they count as. -/
theorem walks_readPart :
    Reader.Walks (Reader.value bound (depthLimit - 1)) (schema.readPart bound) schema.place where
  member_iff := by
    intro seen seen' k s rest part
    simp only [readMember_eq_ok_iff]
    unfold readPart
    by_cases hk : k = schema.tag
    · subst hk
      cases seen with
      | true =>
        simp only [if_true]
        constructor
        · intro h
          cases h
        · rintro ⟨⟨k, v⟩, ⟨s', -, -, rfl⟩, hplace⟩
          obtain ⟨_, _, hseen, -⟩ := place_tag_eq_some_iff.mp hplace
          cases hseen
      | false =>
        simp only [if_true, Bool.false_eq_true, if_false]
        constructor
        · intro h
          obtain ⟨s', hcolon, hmore⟩ := bind_eq_ok.mp h
          obtain ⟨⟨variant, s''⟩, htag, hpart⟩ := bind_eq_ok.mp hmore
          cases hpart
          obtain ⟨name, hname, hfind⟩ := (readTag_eq_ok_iff (depthLimit - 2)).mp htag
          exact ⟨(schema.tag, .string name), ⟨s', hcolon, hname, rfl⟩, by simp [place, hfind]⟩
        · rintro ⟨⟨k, v⟩, ⟨s', hcolon, hitem, rfl⟩, hplace⟩
          obtain ⟨name, variant, -, rfl, hfind, hpart⟩ := place_tag_eq_some_iff.mp hplace
          cases hpart
          have htag := (readTag_eq_ok_iff (depthLimit - 2)).mpr ⟨name, hitem, hfind⟩
          simp [hcolon, htag, pure, Except.pure]
    · simp only [hk, if_false]
      constructor
      · intro h
        obtain ⟨⟨⟨k', v⟩, s'⟩, hmember, hpart⟩ := bind_eq_ok.mp h
        cases hpart
        obtain ⟨s'', hcolon, hitem, rfl⟩ := readMember_eq_ok_iff.mp hmember
        exact ⟨(k', v), ⟨s'', hcolon, hitem, rfl⟩, place_of_ne hk v⟩
      · rintro ⟨⟨k', v⟩, hmember, hplace⟩
        obtain ⟨s', hcolon, hitem, rfl⟩ := hmember
        have hread := readMember_eq_ok_iff.mpr ⟨s', hcolon, hitem, rfl⟩
        rw [place_of_ne hk] at hplace
        cases hplace
        simp [hread, pure, Except.pure]

theorem walk_place_true {ms : List (String × Json)} {parts : List (Part α)} :
    Reader.walk schema.place true ms = some parts ↔
      named schema.tag ms = [] ∧ parts = ms.map fun m => .member m.1 m.2 := by
  induction ms generalizing parts with
  | nil => simp [Reader.walk, eq_comm]
  | cons m ms ih =>
    obtain ⟨k, v⟩ := m
    rw [Reader.walk_cons_eq_some_iff]
    by_cases hk : k = schema.tag
    · subst hk
      simp [place_tag_eq_some_iff]
    · rw [named_cons_of_ne hk]
      constructor
      · rintro ⟨part, seen, parts, hplace, hwalk, rfl⟩
        rw [place_of_ne hk] at hplace
        cases hplace
        obtain ⟨hnamed, rfl⟩ := ih.mp hwalk
        exact ⟨hnamed, rfl⟩
      · rintro ⟨hnamed, rfl⟩
        exact ⟨_, _, _, place_of_ne hk v, ih.mpr ⟨hnamed, rfl⟩, rfl⟩

theorem filterMap_member?_map (ms : List (String × Json)) :
    (ms.map fun m => (Part.member m.1 m.2 : Part α)).filterMap Part.member? = ms := by
  rw [List.filterMap_map]
  exact List.filterMap_some

theorem walk_place_false {ms ms' : List (String × Json)} :
    (∃ parts, Reader.walk schema.place false ms = some parts ∧
      parts.findSome? Part.tag? = some variant ∧ parts.filterMap Part.member? = ms') ↔
    ∃ name, named schema.tag ms = [.string name] ∧ schema.find? name = some variant ∧
      ms' = ms.filter (·.1 ≠ schema.tag) := by
  induction ms generalizing ms' with
  | nil => simp [Reader.walk]
  | cons m ms ih =>
    obtain ⟨k, v⟩ := m
    by_cases hk : k = schema.tag
    · subst hk
      rw [named_cons_self]
      constructor
      · rintro ⟨parts, hwalk, hfirst, rfl⟩
        obtain ⟨part, seen, parts', hplace, hwalk', rfl⟩ :=
          Reader.walk_cons_eq_some_iff.mp hwalk
        obtain ⟨name, variant', -, rfl, hfind, hpart⟩ := place_tag_eq_some_iff.mp hplace
        cases hpart
        obtain ⟨hnamed, rfl⟩ := walk_place_true.mp hwalk'
        cases hfirst
        refine ⟨name, by rw [hnamed], hfind, ?_⟩
        rw [filter_cons_self_ne, filter_ne_of_named_eq_nil hnamed]
        exact filterMap_member?_map ms
      · rintro ⟨name, hname, hfind, rfl⟩
        obtain ⟨rfl, hnamed⟩ := List.cons.inj hname
        refine ⟨_, Reader.walk_cons_eq_some_iff.mpr ⟨_, _, _, place_tag_eq_some_iff.mpr
          ⟨name, variant, rfl, rfl, hfind, rfl⟩, walk_place_true.mpr ⟨hnamed, rfl⟩, rfl⟩, rfl, ?_⟩
        rw [filter_cons_self_ne, filter_ne_of_named_eq_nil hnamed]
        exact filterMap_member?_map ms
    · rw [named_cons_of_ne hk]
      constructor
      · rintro ⟨parts, hwalk, hfirst, rfl⟩
        obtain ⟨part, seen, parts', hplace, hwalk', rfl⟩ :=
          Reader.walk_cons_eq_some_iff.mp hwalk
        rw [place_of_ne hk] at hplace
        cases hplace
        obtain ⟨name, hname, hfind, hms⟩ := ih.mp ⟨parts', hwalk', hfirst, rfl⟩
        refine ⟨name, hname, hfind, ?_⟩
        rw [filter_cons_of_ne hk, ← hms]
        rfl
      · rintro ⟨name, hname, hfind, rfl⟩
        obtain ⟨parts, hwalk, hfirst, hms⟩ := ih.mpr ⟨name, hname, hfind, rfl⟩
        refine ⟨_, Reader.walk_cons_eq_some_iff.mpr
          ⟨_, _, _, place_of_ne hk v, hwalk, rfl⟩, hfirst, ?_⟩
        rw [filter_cons_of_ne hk, ← hms]
        rfl

theorem readContent_eq_ok_iff {content : Content} :
    schema.readContent bound s = .ok ((variant, content), rest) ↔
      ∃ v, Reader.value bound depthLimit s = .ok (v, rest) ∧ schema.Splits v variant content := by
  have hvalue := @Reader.value_succ_eq_ok_iff bound (depthLimit - 1) s rest
  unfold readContent
  constructor
  · intro h
    dsimp only at h
    split at h
    next u hskip =>
      obtain ⟨⟨parts, s'⟩, hmembers, hparts⟩ := bind_eq_ok.mp h
      obtain ⟨ms, hencloses, hlength, hwalk⟩ :=
        (Reader.readMembers_eq_ok_iff walks_readPart).mp hmembers
      dsimp only at hparts
      split at hparts
      next variant' hfirst =>
        cases hparts
        obtain ⟨name, hname, hfind, hms⟩ := walk_place_false.mp ⟨parts, hwalk, hfirst, rfl⟩
        refine ⟨.object ms, hvalue.mpr (.inr (.inl ⟨u, ms, hskip, rfl, hlength, hencloses⟩)), ?_⟩
        rw [hms]
        exact .members hname hfind
      next => cases hparts
    next u hskip =>
      split at h
      · cases h
      · cases h
      next hnil hclose =>
        obtain ⟨⟨variant', s₁⟩, htag, hmore⟩ := bind_eq_ok.mp h
        obtain ⟨⟨vs, s₂⟩, hitems, heq⟩ := bind_eq_ok.mp hmore
        cases heq
        obtain ⟨name, hname, hfind⟩ := (readTag_eq_ok_iff (depthLimit - 2)).mp htag
        obtain ⟨hfollows, hlength⟩ := Reader.moreItems_eq_ok_iff.mp hitems
        have hopens := Reader.opens_of_ne hnil hclose
        exact ⟨.array (.string name :: vs), hvalue.mpr
          (.inl ⟨u, _, hskip, rfl, hlength, .entries hopens hname hfollows⟩), .items hfind⟩
    next =>
      obtain ⟨⟨v, s'⟩, -, herror⟩ := bind_eq_ok.mp h
      cases herror
  · rintro ⟨v, hv, hsplits⟩
    rcases hvalue.mp hv with ⟨u, vs, hskip, rfl, hlength, hencloses⟩ |
      ⟨u, ms, hskip, rfl, hlength, hencloses⟩ | ⟨-, hscalar⟩
    · cases hsplits with
      | items hfind =>
        cases hencloses with
        | entries hopens hitem hfollows =>
          obtain ⟨c, u', hu, hc⟩ := hopens
          have htag := (readTag_eq_ok_iff (depthLimit - 2)).mpr ⟨_, hitem, hfind⟩
          have hmore := Reader.moreItems_eq_ok_iff.mpr ⟨hfollows, hlength⟩
          rw [hu] at htag
          simp only [hskip, hu]
          split
          next heq => cases heq
          next heq =>
            cases heq
            exact absurd rfl hc
          next => simp [htag, hmore, pure, Except.pure]
    · cases hsplits with
      | members hname hfind =>
        obtain ⟨parts, hwalk, hfirst, hms⟩ := walk_place_false.mpr ⟨_, hname, hfind, rfl⟩
        have hmembers := (Reader.readMembers_eq_ok_iff walks_readPart).mpr
          ⟨ms, hencloses, hlength, hwalk⟩
        simp [hskip, hmembers, hfirst, hms, pure, Except.pure]
    · obtain ⟨t, ⟨-, hdepth⟩, -⟩ := Reader.readScalar_sound hscalar
      cases hsplits <;> cases hdepth

/-- The fields are the same with the tag among the members and without it. -/
theorem Distinct.holds_filter_iff (h : schema.Distinct) {name : String}
    (hfind : schema.find? name = some variant) {r : Record variant.fields}
    {ms : List (String × Json)} :
    Record.ofMembers variant.fields (ms.filter (·.1 ≠ schema.tag)) = .ok r ↔
      Record.Holds variant.fields r ms := by
  obtain ⟨hnodup, htag⟩ := h variant (List.mem_of_find?_eq_some hfind)
  rw [Record.ofMembers_eq_ok_iff hnodup]
  refine Record.holds_congr fun f hf => named_filter_ne fun heq => ?_
  exact htag (heq ▸ List.mem_map_of_mem hf)

theorem build_eq_ok_iff (hdistinct : schema.Distinct) {v : Json} {a : α} :
    (∃ variant content, schema.Splits v variant content ∧ schema.build variant content = .ok a) ↔
      schema.Represents v a := by
  constructor
  · rintro ⟨variant, content, hsplits, hbuild⟩
    cases hsplits with
    | members hname hfind =>
      obtain ⟨r, hr, rfl⟩ := map_eq_ok.mp hbuild
      exact .members hname hfind ((hdistinct.holds_filter_iff hfind).mp hr)
    | items hfind =>
      obtain ⟨r, hr, rfl⟩ := map_eq_ok.mp hbuild
      exact .items hfind (Record.ofItems_eq_ok_iff.mp hr)
  · intro h
    cases h with
    | members hname hfind hr =>
      exact ⟨_, _, .members hname hfind,
        map_eq_ok.mpr ⟨_, (hdistinct.holds_filter_iff hfind).mpr hr, rfl⟩⟩
    | items hfind hr =>
      exact ⟨_, _, .items hfind, map_eq_ok.mpr ⟨_, Record.ofItems_eq_ok_iff.mpr hr, rfl⟩⟩

/-- A text is read as a tagged value exactly when it is the text of a plain one that stands for
it. -/
theorem read_eq_ok_iff (hdistinct : schema.Distinct) {text : List Char} {a : α} :
    schema.read text = .ok a ↔
      ∃ v, IsText text v ∧ v.depth ≤ depthLimit ∧ schema.Represents v a := by
  have hread : schema.read text = .ok a ↔
      ∃ v, read? depthLimit text = .ok v ∧ schema.Represents v a := by
    simp only [← build_eq_ok_iff hdistinct]
    unfold Schema.read
    constructor
    · intro h
      split at h
      · cases h
      next variant content s hcontent =>
        split at h
        · cases h
        next b hbuild =>
          split at h
          · cases h
          next hend =>
            cases h
            obtain ⟨v, hvalue, hsplits⟩ := readContent_eq_ok_iff.mp hcontent
            refine ⟨v, ?_, variant, content, hsplits, hbuild⟩
            simp only [read?, hvalue, ok_bind, hend]
            rfl
    · rintro ⟨v, hv, variant, content, hsplits, hbuild⟩
      obtain ⟨⟨v', s⟩, hvalue, hmore⟩ := bind_eq_ok.mp hv
      obtain ⟨⟨⟩, hend, heq⟩ := bind_eq_ok.mp hmore
      cases heq
      have hcontent := readContent_eq_ok_iff.mpr ⟨v, hvalue, hsplits⟩
      simp only [hcontent, hbuild, hend]
  rw [hread]
  refine exists_congr fun v => ?_
  rw [read?_eq_ok_iff, and_assoc]

end Schema
end PacedJobs
