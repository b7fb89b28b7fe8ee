import Mathlib.Data.List.DropRight
import PacedJobs.Proofs.Schema.SelfDelimiting
import PacedJobs.Proofs.Text.DressedLines
import PacedJobs.Session.Basic

/-!
# Lines that are cut off or run together

A written action is read from its line as a whole. When the line loses its end, or when something
stands behind the action, the session does not do anything else instead: it rejects the line and
goes on as it was.
-/

namespace PacedJobs

open Json

namespace Blank

theorem trimEnd_eq_rdropWhile (s : List Char) : trimEnd s = s.rdropWhile isBlank :=
  rfl

theorem trimEnd_isPrefix (s : List Char) : trimEnd s <+: s :=
  List.rdropWhile_prefix isBlank s

theorem trimEnd_append (s t : List Char) :
    trimEnd (s ++ t) = if trimEnd t = [] then trimEnd s else s ++ trimEnd t := by
  simp only [trimEnd, trimStart, List.reverse_append, List.dropWhile_append, List.isEmpty_iff,
    List.reverse_eq_nil_iff]
  split <;> simp

theorem isBlank_of_isSpace {c : Char} (h : Reader.isSpace c = true) : isBlank c = true := by
  simp only [Reader.isSpace, Bool.or_eq_true, beq_iff_eq] at h
  rcases h with ((rfl | rfl) | rfl) | rfl <;> decide

/-- The last character that is left is no blank, so it is not skipped between tokens either. -/
theorem not_white_trimEnd {s : List Char} (h : ¬ ∀ c ∈ s, isBlank c = true) :
    ¬ White (trimEnd s) := by
  intro hwhite
  rw [trimEnd_eq_rdropWhile] at hwhite
  have hne : s.rdropWhile isBlank ≠ [] := fun hnil => h (List.rdropWhile_eq_nil_iff.mp hnil)
  have hlast := List.rdropWhile_last_not isBlank s hne
  exact hlast (isBlank_of_isSpace (hwhite _ (List.getLast_mem hne)))

/-- Text between braces loses nothing, and what follows it loses the blanks at its end. -/
theorem trim_braces_append (m t : List Char) :
    trim ('\x7b' :: m ++ ['\x7d'] ++ t) = '\x7b' :: m ++ ['\x7d'] ++ trimEnd t := by
  have hstart : trimStart ('\x7b' :: m ++ ['\x7d'] ++ t) = '\x7b' :: m ++ ['\x7d'] ++ t := rfl
  have hend : trimEnd ('\x7b' :: m ++ ['\x7d']) = '\x7b' :: m ++ ['\x7d'] := by
    rw [trimEnd_append]
    rfl
  rw [trim, hstart, trimEnd_append, hend]
  split
  next hnil => rw [hnil, List.append_nil]
  · rfl

end Blank

/-! ### Actions and replies -/

theorem Schema.exists_tagged_eq {α : Type} (schema : Schema α) (name : String)
    (ms : List (String × Json)) : ∃ m, schema.tagged name ms = '\x7b' :: m ++ ['\x7d'] := by
  refine ⟨Escaped.write schema.tag ++ ':' :: Escaped.write name ++
    (ms.map compactMember).flatMap (',' :: ·), ?_⟩
  simp [tagged, compact, compactMembers_eq]

theorem Action.exists_write_eq (a : Action) : ∃ name ms,
    a.write = Action.schema.tagged name ms ∧ ∀ m ∈ ms, m.1 ≠ Action.schema.tag := by
  cases a with
  | submit payload priority taskCount =>
    exact ⟨"submit", _, rfl, by simp [Action.schema]⟩
  | cancel id => exact ⟨"cancel", _, rfl, by simp [Action.schema]⟩
  | cancelBelow priority => exact ⟨"cancel-below", _, rfl, by simp [Action.schema]⟩

theorem Reply.exists_write_eq (r : Reply) : ∃ name ms,
    r.write = Reply.schema.tagged name ms ∧ ∀ m ∈ ms, m.1 ≠ Reply.schema.tag := by
  cases r with
  | submitted id => exact ⟨"submitted", _, rfl, by simp [Reply.schema]⟩
  | cancelled id removed => exact ⟨"cancelled", _, rfl, by simp [Reply.schema]⟩
  | cancelledBelow priority ids =>
    exact ⟨"cancelled-below", _, rfl, by simp [Reply.schema]⟩
  | result id ok error =>
    refine ⟨"result", _, rfl, ?_⟩
    cases ok <;> cases error <;> simp [Reply.schema]
  | rejected line message => exact ⟨"error", _, rfl, by simp [Reply.schema]⟩

theorem Action.delimits {a b : Action} (h : Action.read a.write = .ok b) :
    Action.schema.Delimits a.write b := by
  obtain ⟨name, ms, hwrite, hms⟩ := a.exists_write_eq
  rw [hwrite] at h ⊢
  exact Schema.delimits_tagged hms h

theorem Reply.delimits {r r' : Reply} (h : Reply.read r.write = .ok r') :
    Reply.schema.Delimits r.write r' := by
  obtain ⟨name, ms, hwrite, hms⟩ := r.exists_write_eq
  rw [hwrite] at h ⊢
  exact Schema.delimits_tagged hms h

/-! ### Sessions -/

namespace Session

variable {σ ω : Type}

/-- Whatever its state, a session takes the line as a whole: it rejects the beginnings of the line
and what goes on behind it, and stays as it was. Blanks behind the line change nothing. -/
structure TakesWhole (d : Desk σ ω) (w : List Char) : Prop where
  cut (s : Session σ) {p : List Char} : CutFrom p w → p ≠ [] →
    ∃ r : Refusal, r.cause.category = .eof ∧
      s.answer d p = (some (.rejected (UInt64.ofNat s.lines) r.message), s)
  blank (s : Session σ) {t : List Char} : (∀ c ∈ t, Blank.isBlank c = true) →
    s.answer d (w ++ t) = s.answer d w
  joined (s : Session σ) {t : List Char} : (¬ ∀ c ∈ t, Blank.isBlank c = true) →
    ∃ r : Refusal, r.cause = .trailingText ∧
      s.answer d (w ++ t) = (some (.rejected (UInt64.ofNat s.lines) r.message), s)

variable {d : Desk σ ω}

theorem answer_congr {s : Session σ} {line line' : List Char}
    (h : Blank.trim line = Blank.trim line') : s.answer d line = s.answer d line' := by
  unfold answer
  rw [h]

theorem answer_of_read_error {s : Session σ} {line : List Char} {r : Refusal}
    (hne : Blank.trim line ≠ []) (h : Action.read (Blank.trim line) = .error r) :
    s.answer d line = (some (.rejected (UInt64.ofNat s.lines) r.message), s) := by
  unfold answer
  split
  next hnil => exact absurd hnil hne
  next => rw [h]

theorem takesWhole_write {a b : Action} (h : Action.read a.write = .ok b) (d : Desk σ ω) :
    TakesWhole d a.write := by
  have hdelimits := Action.delimits h
  obtain ⟨m, hm⟩ : ∃ m, a.write = '\x7b' :: m ++ ['\x7d'] := by
    obtain ⟨name, ms, hwrite, -⟩ := a.exists_write_eq
    exact hwrite ▸ Action.schema.exists_tagged_eq name ms
  refine ⟨fun s p hp hne => ?_, fun s t ht => ?_, fun s t ht => ?_⟩
  · obtain ⟨q, rfl⟩ : ∃ q, p = '\x7b' :: q := by
      rcases (hm ▸ hp).cons_cases with rfl | ⟨q, rfl, -⟩
      · exact absurd rfl hne
      · exact ⟨q, rfl⟩
    have hfront : Blank.trim ('\x7b' :: q) <+: '\x7b' :: q := Blank.trimEnd_isPrefix ('\x7b' :: q)
    have hne' : Blank.trim ('\x7b' :: q) ≠ [] := fun hnil =>
      absurd (List.rdropWhile_eq_nil_iff.mp hnil _ List.mem_cons_self) (by decide)
    obtain ⟨r, hr, hcategory⟩ := hdelimits.front (hp.of_isPrefix hfront)
    exact ⟨r, hcategory, answer_of_read_error hne' hr⟩
  · exact answer_congr (Blank.trim_append_right ht a.write)
  · have htrim : Blank.trim (a.write ++ t) = a.write ++ Blank.trimEnd t := by
      rw [hm]
      exact Blank.trim_braces_append m t
    obtain ⟨r, hr, hcause⟩ := hdelimits.trailing (Blank.not_white_trimEnd ht)
    have hne : a.write ++ Blank.trimEnd t ≠ [] := by simp [hm]
    exact ⟨r, hcause, answer_of_read_error (htrim ▸ hne) (htrim ▸ hr)⟩

end Session

/-- A written action or reply that is read at all tells where it ends: its beginnings end too early,
only white space goes on behind it, and no session does anything for a line that is cut off or run
together with something else. -/
theorem written_lines_taken_whole :
    (∀ a b : Action, Action.read a.write = .ok b → Action.schema.Delimits a.write b ∧
      ∀ {σ ω : Type} (d : Desk σ ω), Session.TakesWhole d a.write) ∧
    ∀ r r' : Reply, Reply.read r.write = .ok r' → Reply.schema.Delimits r.write r' :=
  ⟨fun _ _ h => ⟨Action.delimits h, Session.takesWhole_write h⟩, fun _ _ => Reply.delimits⟩

/-- A payload with a fraction, an escape and brackets in brackets. -/
def nestedSubmission : Action :=
  .submit (.object [("names", .array [.string "a\n", .null, .array []]),
    ("ratio", .double ⟨true, 0x3ff8000000000000⟩)]) 7 3

theorem written_lines_taken_whole_nested :
    Action.schema.Delimits nestedSubmission.write nestedSubmission ∧
      Reply.schema.Delimits (Reply.cancelledBelow 7 [⟨1⟩, ⟨2⟩]).write
        (.cancelledBelow 7 [⟨1⟩, ⟨2⟩]) := by
  have haction : Action.read nestedSubmission.write = .ok nestedSubmission := by decide +kernel
  have hreply : Reply.read (Reply.cancelledBelow 7 [⟨1⟩, ⟨2⟩]).write =
      .ok (.cancelledBelow 7 [⟨1⟩, ⟨2⟩]) := by rfl
  exact ⟨(written_lines_taken_whole.1 _ _ haction).1, written_lines_taken_whole.2 _ _ hreply⟩

end PacedJobs
