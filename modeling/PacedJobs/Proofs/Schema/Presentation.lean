import PacedJobs.Proofs.Action.Format
import PacedJobs.Proofs.Json.Tokens
import PacedJobs.Proofs.Reply.RoundTrip

/-!
# What reading looks past

White space, the spelling of strings, the order of the members, and members that are no fields make
no difference to what is read. An array of values for the first fields is read as an object of them.
-/

namespace PacedJobs

open Json

namespace Json

variable {k : String} {ms ns : List (String × Json)}

theorem named_perm (h : ms.Perm ns) : (named k ms).Perm (named k ns) :=
  (h.filter _).map _

theorem named_eq_nil (h : ∀ m ∈ ms, m.1 ≠ k) : named k ms = [] := by
  rw [named, List.map_eq_nil_iff, List.filter_eq_nil_iff]
  exact fun m hm => by simpa using h m hm

theorem named_append_of_ne (h : ∀ m ∈ ns, m.1 ≠ k) : named k (ms ++ ns) = named k ms := by
  rw [named_append, named_eq_nil h, List.append_nil]

/-- An array is as deep as the object that gives names to its elements. -/
theorem depth_object_zip_le_iff (tag name : String) {ks : List String} {vs : List Json}
    (h : vs.length ≤ ks.length) (d : Nat) :
    (object ((tag, .string name) :: ks.zip vs)).depth ≤ d ↔
      (array (.string name :: vs)).depth ≤ d := by
  cases d with
  | zero => simp [depth]
  | succ d =>
    have hvalues : (ks.zip vs).map Prod.snd = vs := List.map_snd_zip h
    rw [depth, depth, Nat.succ_le_succ_iff, Nat.succ_le_succ_iff, membersDepth_le_iff,
      itemsDepth_le_iff, List.forall_mem_cons, List.forall_mem_cons]
    refine and_congr_right' ?_
    conv_rhs => rw [← hvalues, List.forall_mem_map]

end Json

theorem Field.holds_of_perm {f : Field} {x : f.kind.Carrier} {vs vs' : List Json} (h : f.Holds x vs)
    (hperm : vs'.Perm vs) : f.Holds x vs' := by
  rcases h with ⟨v, rfl, hx⟩ | ⟨rfl, hx⟩
  · exact .inl ⟨v, List.perm_singleton.mp hperm, hx⟩
  · exact .inr ⟨List.perm_nil.mp hperm, hx⟩

namespace Record

theorem holds_of_perm {ms ms' : List (String × Json)} : ∀ {fs : List Field} {r : Record fs},
    Holds fs r ms → ms'.Perm ms → Holds fs r ms'
  | [], (), _, _ => trivial
  | _ :: _, (_, _), ⟨hx, hr⟩, hperm =>
    ⟨Field.holds_of_perm hx (named_perm hperm), holds_of_perm hr hperm⟩

theorem lists_iff_holds_zip : ∀ {fs : List Field} {r : Record fs} {vs : List Json},
    (fs.map Field.name).Nodup → vs.length ≤ fs.length →
      (Lists fs r vs ↔ Holds fs r ((fs.map Field.name).zip vs))
  | [], (), vs, _, hlength => by
    have hvs : vs = [] := List.length_eq_zero_iff.mp (Nat.le_zero.mp hlength)
    exact ⟨fun _ => trivial, fun _ => hvs⟩
  | f :: fs, (x, r), [], hnodup, _ => by
    have hnone : Lists fs r [] ↔ Holds fs r ((fs.map Field.name).zip []) :=
      lists_iff_holds_zip (List.nodup_cons.mp hnodup).2 (Nat.zero_le _)
    rw [List.zip_nil_right] at hnone ⊢
    rw [Lists, Holds, hnone, named_nil]
    refine and_congr_left' ⟨fun hx => .inr ⟨rfl, hx⟩, ?_⟩
    rintro (⟨v, hv, -⟩ | ⟨-, hx⟩)
    · cases hv
    · exact hx
  | f :: fs, (x, r), v :: vs, hnodup, hlength => by
    obtain ⟨hf, hfs⟩ := List.nodup_cons.mp hnodup
    have hrest : ∀ m ∈ (fs.map Field.name).zip vs, m.1 ≠ f.name := by
      rintro ⟨k, w⟩ hm rfl
      exact hf (List.of_mem_zip hm).1
    have hskip : ∀ g ∈ fs, named g.name ((f.name, v) :: (fs.map Field.name).zip vs) =
        named g.name ((fs.map Field.name).zip vs) :=
      fun g hg => named_cons_of_ne fun heq => hf (heq ▸ List.mem_map_of_mem hg)
    rw [List.map_cons, List.zip_cons_cons, Lists, Holds, named_cons_self, named_eq_nil hrest,
      holds_congr hskip, ← lists_iff_holds_zip hfs (Nat.le_of_succ_le_succ hlength)]
    refine and_congr_left' ⟨fun hx => .inl ⟨v, rfl, hx⟩, ?_⟩
    rintro (⟨w, hw, hx⟩ | ⟨hv, -⟩)
    · cases hw
      exact hx
    · cases hv

end Record

namespace Schema

variable {α : Type} (schema : Schema α)

/-- The members are neither the tag nor fields, and leave room for the bracket around them. -/
def Extra (variant : Variant α) (ns : List (String × Json)) : Prop :=
  ∀ m ∈ ns, m.1 ≠ schema.tag ∧ m.1 ∉ variant.fields.map Field.name ∧ m.2.depth < depthLimit

/-- What of a text makes no difference to what is read from it. -/
structure Insensitive : Prop where
  /-- The white space between tokens, and how the characters of strings are spelled. -/
  restyled {t : List Char} {a : α} : schema.read t = .ok a →
    (∃ ts, Tokens t ts) ∧ ∀ t', Restyles t t' → schema.read t' = .ok a
  /-- The order of the members, the tag being one of them, and members that are no fields. -/
  rearranged {t : List Char} {ms : List (String × Json)} {a : α} : schema.read t = .ok a →
    IsText t (.object ms) → ∃ name variant, named schema.tag ms = [.string name] ∧
      schema.find? name = some variant ∧ ∀ ns ms' t', schema.Extra variant ns →
        ms'.Perm (ms ++ ns) → IsText t' (.object ms') → schema.read t' = .ok a
  /-- Whether values for the first fields are the elements of an array or stand under their
  names. -/
  listed {name : String} {variant : Variant α} {vs : List Json} {t t' : List Char} (a : α) :
    schema.find? name = some variant → vs.length ≤ variant.fields.length →
    IsText t (.array (.string name :: vs)) →
    IsText t' (.object ((schema.tag, .string name) :: (variant.fields.map Field.name).zip vs)) →
    (schema.read t = .ok a ↔ schema.read t' = .ok a)

variable {schema} {name : String} {variant : Variant α}

theorem Distinct.nodup (h : schema.Distinct) (hfind : schema.find? name = some variant) :
    (variant.fields.map Field.name).Nodup :=
  (h variant (List.mem_of_find?_eq_some hfind)).1

theorem Distinct.ne_tag (h : schema.Distinct) (hfind : schema.find? name = some variant) {f : Field}
    (hf : f ∈ variant.fields) : schema.tag ≠ f.name :=
  fun heq => (h variant (List.mem_of_find?_eq_some hfind)).2 (heq ▸ List.mem_map_of_mem hf)

theorem named_tag_zip (h : schema.Distinct) (hfind : schema.find? name = some variant)
    (vs : List Json) : named schema.tag ((variant.fields.map Field.name).zip vs) = [] := by
  refine named_eq_nil ?_
  rintro ⟨k, v⟩ hm heq
  obtain ⟨f, hf, hk⟩ := List.mem_map.mp (List.of_mem_zip hm).1
  exact h.ne_tag hfind hf (heq.symm.trans hk.symm)

theorem represents_rearranged {ms ns ms' : List (String × Json)} {r : Record variant.fields}
    (hname : named schema.tag ms = [.string name]) (hfind : schema.find? name = some variant)
    (hr : Record.Holds variant.fields r ms) (hextra : schema.Extra variant ns)
    (hperm : ms'.Perm (ms ++ ns)) : schema.Represents (.object ms') (variant.build r) := by
  have htag : named schema.tag (ms ++ ns) = [.string name] := by
    rw [named_append_of_ne fun m hm => (hextra m hm).1, hname]
  have hfields : Record.Holds variant.fields r (ms ++ ns) := by
    refine (Record.holds_congr fun f hf => named_append_of_ne fun m hm heq => ?_).mpr hr
    exact (hextra m hm).2.1 (heq ▸ List.mem_map_of_mem hf)
  have htag' : named schema.tag ms' = [.string name] :=
    List.perm_singleton.mp (htag ▸ named_perm hperm)
  exact .members htag' hfind (Record.holds_of_perm hfields hperm)

theorem represents_listed_iff (h : schema.Distinct) (hfind : schema.find? name = some variant)
    {vs : List Json} (hlength : vs.length ≤ variant.fields.length) {a : α} :
    schema.Represents (.array (.string name :: vs)) a ↔ schema.Represents
      (.object ((schema.tag, .string name) :: (variant.fields.map Field.name).zip vs)) a := by
  have hlists : ∀ r, Record.Lists variant.fields r vs ↔ Record.Holds variant.fields r
      ((schema.tag, .string name) :: (variant.fields.map Field.name).zip vs) := fun r => by
    rw [Record.lists_iff_holds_zip (h.nodup hfind) hlength]
    exact Record.holds_congr fun f hf => (named_cons_of_ne (h.ne_tag hfind hf)).symm
  constructor
  · intro ha
    cases ha with
    | items hfind' hr =>
      obtain rfl := Option.some.inj (hfind.symm.trans hfind')
      refine .members ?_ hfind ((hlists _).mp hr)
      rw [named_cons_self, named_tag_zip h hfind]
  · intro ha
    cases ha with
    | members hname hfind' hr =>
      rw [named_cons_self] at hname
      cases (List.cons.inj hname).1
      obtain rfl := Option.some.inj (hfind.symm.trans hfind')
      exact .items hfind ((hlists _).mpr hr)

theorem insensitive (h : schema.Distinct) : schema.Insensitive where
  restyled hread := by
    obtain ⟨v, htext, hdepth, ha⟩ := (read_eq_ok_iff h).mp hread
    obtain ⟨ts, hts, -⟩ := htext.exists_tokens
    exact ⟨⟨ts, hts⟩, fun t' hstyle =>
      (read_eq_ok_iff h).mpr ⟨v, htext.restyled hstyle, hdepth, ha⟩⟩
  rearranged hread htext := by
    obtain ⟨v, htext', hdepth, ha⟩ := (read_eq_ok_iff h).mp hread
    cases htext.unique htext'
    cases ha with
    | members hname hfind hr =>
      refine ⟨_, _, hname, hfind, fun ns ms' t' hextra hperm htext' => ?_⟩
      refine (read_eq_ok_iff h).mpr
        ⟨_, htext', ?_, represents_rearranged hname hfind hr hextra hperm⟩
      have hms := membersDepth_le_iff.mp (Nat.le_of_succ_le_succ hdepth)
      refine Nat.succ_le_succ (membersDepth_le_iff.mpr fun m hm => ?_)
      rcases List.mem_append.mp (hperm.mem_iff.mp hm) with hm | hm
      · exact hms m hm
      · exact Nat.le_of_lt_succ (hextra m hm).2.2
  listed {name variant vs t t'} a hfind hlength htext htext' := by
    have hlength' : vs.length ≤ (variant.fields.map Field.name).length := by
      rwa [List.length_map]
    have hdepth := depth_object_zip_le_iff schema.tag name hlength' depthLimit
    rw [read_eq_ok_iff h, read_eq_ok_iff h]
    constructor
    · rintro ⟨v, hv, hlimit, ha⟩
      cases htext.unique hv
      exact ⟨_, htext', hdepth.mpr hlimit, (represents_listed_iff h hfind hlength).mp ha⟩
    · rintro ⟨v, hv, hlimit, ha⟩
      cases htext'.unique hv
      exact ⟨_, htext, hdepth.mp hlimit, (represents_listed_iff h hfind hlength).mpr ha⟩

end Schema

/-- Neither actions nor replies depend on how a text presents its value. -/
theorem insensitive_schemas : Action.schema.Insensitive ∧ Reply.schema.Insensitive :=
  ⟨Schema.insensitive Action.distinct_schema, Schema.insensitive Reply.distinct_schema⟩

/-- The members in another order with one more, which has an escape in its key, and an array of a
single field. -/
theorem insensitive_schemas_cancelBelow :
    Action.read "\x7b\"\\u0078\":[0],\"priority\":7,\"action\":\"cancel-below\"\x7d".toList =
        .ok (.cancelBelow 7) ∧
      Action.read "[\"cancel-below\",7]".toList = .ok (.cancelBelow 7) := by
  obtain ⟨hactions, -⟩ := insensitive_schemas
  have hread : Action.read "\x7b\"action\":\"cancel-below\",\"priority\":7\x7d".toList =
      .ok (.cancelBelow 7) := rfl
  have hisText : ∀ {t : List Char} {v : Json}, read? depthLimit t = .ok v → IsText t v :=
    fun hv => (read?_eq_ok_iff.mp hv).1
  have htext : IsText "\x7b\"action\":\"cancel-below\",\"priority\":7\x7d".toList
      (.object [("action", .string "cancel-below"), ("priority", .integer 7)]) := hisText rfl
  have harray : IsText "[\"cancel-below\",7]".toList
      (.array [.string "cancel-below", .integer 7]) := hisText rfl
  have hfind : Action.schema.find? "cancel-below" = some Action.schema.variants[2] := rfl
  constructor
  · obtain ⟨name, variant, hname, hfind', hsame⟩ := hactions.rearranged hread htext
    cases hname
    obtain rfl := Option.some.inj (hfind.symm.trans hfind')
    refine hsame [("x", .array [.integer 0])] [("x", .array [.integer 0]),
      ("priority", .integer 7), ("action", .string "cancel-below")] _ ?_ (by decide) (hisText rfl)
    exact List.forall_mem_singleton.mpr (by decide)
  · exact (hactions.listed (.cancelBelow 7) hfind le_rfl harray htext).mpr hread

end PacedJobs
