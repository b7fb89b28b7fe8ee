import PacedJobs.Proofs.Action.Format
import PacedJobs.Proofs.Json.Fronts
import PacedJobs.Proofs.Reply.RoundTrip

/-!
# Written forms delimit themselves

A written form starts with its tag and ends with the brace that closes it. Any front of one that can
be read ends too early, and behind it nothing but white space is read.
-/

namespace PacedJobs

open Json

namespace Schema

variable {α : Type} (schema : Schema α)

/-- The text is read as the value and tells where it ends: a front of it is too short, and what
follows it is no part of it. -/
structure Delimits (w : List Char) (a : α) : Prop where
  front {p : List Char} : CutFrom p w → ∃ r, schema.read p = .error r ∧ r.cause.category = .eof
  white {s : List Char} : White s → schema.read (w ++ s) = .ok a
  trailing {s : List Char} : ¬ White s →
    ∃ r, schema.read (w ++ s) = .error r ∧ r.cause = .trailingText

def plainPart (bound : Nat) (k : String) (s : List Char) : Except Fault (Part α × List Char) :=
  if k = schema.tag then .error (.here (.mismatch (.duplicateField k)) (closed s))
  else Reader.readMember (Reader.value bound (depthLimit - 1)) k s >>= fun r =>
    pure (.member r.1.1 r.1.2, r.2)

theorem readPart_true (bound : Nat) (k : String) (s : List Char) :
    schema.readPart bound true k s =
      schema.plainPart bound k s >>= fun r => pure (r.1, true, r.2) := by
  unfold readPart plainPart
  by_cases hk : k = schema.tag
  · simp only [hk, if_true]
    rfl
  · rw [if_neg hk, if_neg hk, bind_assoc]
    rfl

def moreParts (bound n : Nat) : List Char → Except Fault (List (Part α) × List Char) :=
  Reader.moreMembers bound (schema.readPart bound) n true

theorem loop_moreParts : Loop '\x7d'
    (fun bound s => Reader.readKey bound s >>= fun r => schema.plainPart bound r.1 r.2)
    schema.moreParts :=
  loop_moreMembers schema.readPart_true

variable {schema} {name : String} {ms : List (String × Json)}

theorem closed_moreParts (hms : ∀ m ∈ ms, m.1 ≠ schema.tag) :
    Closed schema.moreParts (compactMembers ms) := by
  rw [compactMembers_eq]
  refine schema.loop_moreParts.closed_flatMap (.inr rfl) (List.forall_mem_map.mpr fun m hm => ?_)
  have hplain : ∀ bound s, schema.plainPart bound m.1 s =
      Reader.readMember (Reader.value bound (depthLimit - 1)) m.1 s >>= fun r =>
        pure (Part.member r.1.1 r.1.2, r.2) := fun bound s => if_neg (hms m hm)
  exact ⟨Settled.member (f := fun m => Part.member m.1 m.2) hplain
    (fun bound => short_value_nil bound _) (settled_compact m.2 _), starts_compactMember m⟩

theorem starts_write (k : String) (s : List Char) : Reader.Starts (Escaped.write k ++ s) :=
  ⟨'"', _, rfl, by decide, by decide, by decide, by decide⟩

theorem readContent_brace (bound : Nat) (s : List Char) : schema.readContent bound ('\x7b' :: s) =
    Reader.readMembers bound (schema.readPart bound) false s >>= fun r =>
      match r.1.findSome? Part.tag? with
      | some v => pure ((v, .members (r.1.filterMap Part.member?)), r.2)
      | none => .error (.here (.mismatch (.missingField schema.tag)) r.2) :=
  rfl

/-- What stands before the value of the tag in a written form. -/
def opening (schema : Schema α) : List Char :=
  '\x7b' :: (Escaped.write schema.tag ++ [':'])

/-- A written form reads as its tag and then the members behind it. -/
theorem readContent_opening {bound : Nat} {s : List Char}
    (hbound : (schema.opening ++ s).length ≤ bound) :
    schema.readContent bound (schema.opening ++ s) =
      schema.readTag bound s >>= fun r => schema.moreParts bound bound r.2 >>= fun rs =>
        pure ((r.1, .members (rs.1.filterMap Part.member?)), rs.2) := by
  have hsplit : schema.opening ++ s = '\x7b' :: (Escaped.write schema.tag ++ ':' :: s) := by
    simp [opening]
  have hpart : schema.readPart bound false schema.tag (':' :: s) =
      schema.readTag bound s >>= fun r => pure (.tag r.1, true, r.2) := by
    unfold readPart
    simp only [if_true]
    rfl
  rw [hsplit] at hbound ⊢
  rw [readContent_brace, readMembers_eq (starts_write schema.tag _),
    Reader.readKey_complete (Escaped.quoted_write schema.tag) (Nat.le_of_succ_le hbound), ok_bind,
    hpart]
  simp only [bind_assoc, pure_bind]
  rfl

theorem short_readContent_opening {bound : Nat} {p : List Char} (h : CutFrom p schema.opening)
    (hbound : p.length ≤ bound) : Short (schema.readContent bound p) := by
  rcases h.cons_cases with rfl | ⟨q, rfl, hq⟩
  · exact ⟨_, rfl, rfl⟩
  rw [readContent_brace]
  refine Short.bind ?_ _
  by_cases hne : q = []
  · rw [hne]
    exact ⟨_, rfl, rfl⟩
  rw [readMembers_eq ((starts_write schema.tag [':']).of_cutFrom hq hne)]
  rcases hq.append_cases with hq | ⟨v, rfl, hv⟩
  · exact (short_readKey hq hne).bind _
  rcases hv.cons_cases with rfl | ⟨u, rfl, hu⟩
  · rw [Reader.readKey_complete (Escaped.quoted_write schema.tag) (Nat.le_of_succ_le hbound),
      ok_bind]
    refine Short.bind ?_ _
    unfold readPart
    simp only [if_true]
    exact Short.bind ⟨_, rfl, rfl⟩ _
  · exact absurd hu not_cutFrom_nil

theorem short_readTag {bound : Nat} {p : List Char} (h : CutFrom p (Escaped.write name)) :
    Short (schema.readTag bound p) := by
  rcases h.cons_cases with rfl | ⟨q, rfl, hq⟩
  · exact ⟨_, rfl, rfl⟩
  · have hscalar : Short (Reader.readScalar bound ('"' :: q)) :=
      (Escaped.short_readRest name hq).bind _
    exact hscalar.bind _

theorem readTag_write_eq_ok_iff {bound : Nat} {s rest : List Char} {variant : Variant α}
    (hstop : Reader.Stop s) (hbound : (Escaped.write name ++ s).length ≤ bound) :
    schema.readTag bound (Escaped.write name ++ s) = .ok (variant, rest) ↔
      schema.find? name = some variant ∧ rest = s := by
  have hvalue : Reader.value bound 1 (Escaped.write name ++ s) = .ok (.string name, s) :=
    Reader.value_complete_scalar (.string (Escaped.quoted_write name)) rfl hstop hbound 1
  rw [readTag_eq_ok_iff 0, hvalue]
  constructor
  · rintro ⟨name', heq, hfind⟩
    cases heq
    exact ⟨hfind, rfl⟩
  · rintro ⟨hfind, rfl⟩
    exact ⟨name, rfl, hfind⟩

/-- The written form of a value with its tag in front. -/
def tagged (schema : Schema α) (name : String) (ms : List (String × Json)) : List Char :=
  (Json.object ((schema.tag, .string name) :: ms)).compact

theorem tagged_append (name : String) (ms : List (String × Json)) (rest : List Char) :
    schema.tagged name ms ++ rest =
      schema.opening ++ (Escaped.write name ++ (compactMembers ms ++ rest)) := by
  simp [tagged, opening, compact]

theorem stop_compactMembers (ms : List (String × Json)) (rest : List Char) :
    Reader.Stop (compactMembers ms ++ rest) := by
  simpa [compactMembers_eq] using
    Reader.stop_series white_nil (ms.map compactMember) (.inr rfl) rest

section

variable {bound : Nat} {p s rest : List Char} {variant : Variant α} {content : Content} {a : α}

/-- What is known of a written form once it has been read: its variant, and what the loop over its
members makes of them. -/
structure Readable (name : String) (ms : List (String × Json)) (variant : Variant α)
    (parts : List (Part α)) : Prop where
  find?_eq : schema.find? name = some variant
  read {bound n : Nat} {rest : List Char} : (compactMembers ms ++ rest).length ≤ bound + 1 →
    (compactMembers ms).length ≤ n →
    schema.moreParts bound n (compactMembers ms ++ rest) = .ok (parts, rest)
  short {bound n : Nat} {p : List Char} : CutFrom p (compactMembers ms) → p.length ≤ bound + 1 →
    Short (schema.moreParts bound n p)

theorem exists_readable (hms : ∀ m ∈ ms, m.1 ≠ schema.tag)
    (hbound : (schema.tagged name ms).length ≤ bound)
    (h : schema.readContent bound (schema.tagged name ms) = .ok ((variant, content), s)) :
    ∃ parts, schema.Readable name ms variant parts ∧
      content = .members (parts.filterMap Part.member?) ∧ s = [] := by
  rw [← List.append_nil (schema.tagged name ms), tagged_append] at h hbound
  rw [readContent_opening hbound] at h
  simp only [List.length_append] at hbound
  obtain ⟨⟨variant', u⟩, htag, hmore⟩ := bind_eq_ok.mp h
  obtain ⟨hfind, rfl⟩ := (readTag_write_eq_ok_iff (stop_compactMembers ms [])
    (by simp only [List.length_append]; omega)).mp htag
  obtain ⟨⟨parts', u⟩, hparts, heq⟩ := bind_eq_ok.mp hmore
  cases heq
  have hlength : (compactMembers ms ++ []).length ≤ bound + 1 := by
    rw [List.length_append]
    omega
  cases closed_moreParts hms with
  | refused herror =>
    obtain ⟨f, hf⟩ := herror hlength (n := bound)
    cases hf.symm.trans hparts
  | taken parts hread hshort =>
    have hall := hread hlength (n := bound) (by omega)
    obtain ⟨rfl, rfl⟩ := Prod.mk.inj (Except.ok.inj (hparts.symm.trans hall))
    exact ⟨parts', ⟨hfind, hread, hshort⟩, rfl, rfl⟩

namespace Readable

variable {parts : List (Part α)}

theorem readContent_append (h : schema.Readable name ms variant parts)
    (hbound : (schema.tagged name ms ++ rest).length ≤ bound) :
    schema.readContent bound (schema.tagged name ms ++ rest) =
      .ok ((variant, .members (parts.filterMap Part.member?)), rest) := by
  rw [tagged_append] at hbound ⊢
  rw [readContent_opening hbound]
  simp only [List.length_append] at hbound
  have htag : schema.readTag bound (Escaped.write name ++ (compactMembers ms ++ rest)) =
      .ok (variant, compactMembers ms ++ rest) :=
    (readTag_write_eq_ok_iff (stop_compactMembers ms rest)
      (by simp only [List.length_append]; omega)).mpr ⟨h.find?_eq, rfl⟩
  have hmembers : schema.moreParts bound bound (compactMembers ms ++ rest) = .ok (parts, rest) :=
    h.read (by rw [List.length_append]; omega) (by omega)
  rw [htag, ok_bind, hmembers]
  rfl

theorem short_readContent (h : schema.Readable name ms variant parts)
    (hp : CutFrom p (schema.tagged name ms)) (hbound : p.length ≤ bound) :
    Short (schema.readContent bound p) := by
  rw [← List.append_nil (schema.tagged name ms), tagged_append, List.append_nil] at hp
  rcases hp.append_cases with hp | ⟨q, rfl, hq⟩
  · exact short_readContent_opening hp hbound
  rw [readContent_opening hbound]
  rcases hq.append_cases with hq | ⟨u, rfl, hu⟩
  · exact (short_readTag hq).bind _
  simp only [List.length_append] at hbound
  have hstop : Reader.Stop u := (stop_compactMembers ms []).of_isPrefix (by simpa using hu.isPrefix)
  have htag : schema.readTag bound (Escaped.write name ++ u) = .ok (variant, u) :=
    (readTag_write_eq_ok_iff hstop (by rw [List.length_append]; omega)).mpr ⟨h.find?_eq, rfl⟩
  rw [htag, ok_bind]
  exact (h.short hu (by omega)).bind _

end Readable

theorem readEnd_of_not_white (h : ¬ White s) :
    ∃ f, Reader.readEnd s = .error f ∧ f.cause = .trailingText := by
  cases hend : Reader.readEnd s with
  | ok _ => exact absurd (Reader.readEnd_eq_ok_iff.mp hend) h
  | error f =>
    refine ⟨f, rfl, ?_⟩
    unfold Reader.readEnd at hend
    split at hend
    · cases hend
    · cases hend
      rfl

theorem delimits_tagged (hms : ∀ m ∈ ms, m.1 ≠ schema.tag)
    (h : schema.read (schema.tagged name ms) = .ok a) :
    schema.Delimits (schema.tagged name ms) a := by
  obtain ⟨variant, content, s, hcontent, hbuild⟩ : ∃ variant content s,
      schema.readContent (schema.tagged name ms).length (schema.tagged name ms) =
        .ok ((variant, content), s) ∧ schema.build variant content = .ok a := by
    unfold Schema.read at h
    split at h
    · cases h
    next variant content s hcontent =>
      split at h
      · cases h
      next b hbuild =>
        split at h
        · cases h
        · cases h
          exact ⟨variant, content, s, hcontent, hbuild⟩
  obtain ⟨parts, hreadable, rfl, rfl⟩ := exists_readable hms le_rfl hcontent
  refine ⟨fun {p} hp => ?_, fun {s} hs => ?_, fun {s} hs => ?_⟩
  · obtain ⟨f, hf, hcategory⟩ := hreadable.short_readContent hp le_rfl
    refine ⟨f.inText p, ?_, hcategory⟩
    simp only [Schema.read, hf]
  · have hend := Reader.readEnd_eq_ok_iff.mpr hs
    simp only [Schema.read, hreadable.readContent_append le_rfl, hbuild, hend]
  · obtain ⟨f, hf, hcause⟩ := readEnd_of_not_white hs
    refine ⟨f.inText (schema.tagged name ms ++ s), ?_, hcause⟩
    simp only [Schema.read, hreadable.readContent_append le_rfl, hbuild, hf]

end

end Schema
end PacedJobs
