import Mathlib.Data.List.TakeWhile
import PacedJobs.Proofs.Text.EncodedLines
import PacedJobs.Text.Blank

/-!
# Lines and what surrounds them

A line may stand between blanks, end in a carriage return and a line feed, and the last line need
not end at all. None of this changes the texts that the lines hold, nor their numbers.
-/

namespace PacedJobs

namespace Blank

theorem trimStart_append_of_blank {p : List Char} (h : ∀ c ∈ p, isBlank c = true) (s : List Char) :
    trimStart (p ++ s) = trimStart s := by
  induction p with
  | nil => rfl
  | cons c p ih =>
    rw [trimStart, List.cons_append, List.dropWhile_cons_of_pos (h c List.mem_cons_self)]
    exact ih fun d hd => h d (List.mem_cons_of_mem c hd)

theorem trimStart_eq_nil_iff {s : List Char} : trimStart s = [] ↔ ∀ c ∈ s, isBlank c = true :=
  List.dropWhile_eq_nil_iff

theorem trimEnd_append_of_blank {q : List Char} (h : ∀ c ∈ q, isBlank c = true) (s : List Char) :
    trimEnd (s ++ q) = trimEnd s := by
  rw [trimEnd, trimEnd, List.reverse_append,
    trimStart_append_of_blank fun c hc => h c (List.mem_reverse.mp hc)]

theorem trim_append_left {p : List Char} (h : ∀ c ∈ p, isBlank c = true) (s : List Char) :
    trim (p ++ s) = trim s := by
  rw [trim, trim, trimStart_append_of_blank h]

theorem trim_append_right {q : List Char} (h : ∀ c ∈ q, isBlank c = true) (s : List Char) :
    trim (s ++ q) = trim s := by
  by_cases hs : ∀ c ∈ s, isBlank c = true
  · have hnil : trimStart s = [] := trimStart_eq_nil_iff.mpr hs
    have hboth : trimStart (s ++ q) = [] := by
      rw [trimStart_append_of_blank hs, trimStart_eq_nil_iff.mpr h]
    rw [trim, trim, hnil, hboth]
  · have hsplit : trimStart (s ++ q) = trimStart s ++ q := by
      have hne : trimStart s ≠ [] := fun hnil => hs (trimStart_eq_nil_iff.mp hnil)
      rw [trimStart, trimStart, List.dropWhile_append, if_neg]
      simpa [trimStart] using hne
    rw [trim, trim, hsplit, trimEnd_append_of_blank h]

end Blank

namespace Lines

/-- The texts that lines hold between blanks, each with the number of its line. Lines that hold
nothing count, but are passed over. -/
def numbered (n : Nat) (lines : List (List Char)) : List (List Char × Nat) :=
  ((lines.map Blank.trim).zipIdx n).filter (·.1 ≠ [])

@[simp] theorem numbered_nil (n : Nat) : numbered n [] = [] := rfl

theorem numbered_cons (n : Nat) (line : List Char) (lines : List (List Char)) :
    numbered n (line :: lines) =
      (if Blank.trim line = [] then [] else [(Blank.trim line, n)]) ++ numbered (n + 1) lines := by
  by_cases h : Blank.trim line = [] <;> simp [numbered, h]

theorem numbered_append (n : Nat) (lines lines' : List (List Char)) :
    numbered n (lines ++ lines') = numbered n lines ++ numbered (n + lines.length) lines' := by
  simp [numbered, List.zipIdx_append]

theorem map_fst_numbered (n : Nat) (lines : List (List Char)) :
    (numbered n lines).map Prod.fst = (lines.map Blank.trim).filter (· ≠ []) := by
  induction lines generalizing n with
  | nil => rfl
  | cons line lines ih =>
    by_cases h : Blank.trim line = [] <;> simp [numbered_cons, h, ih]

theorem numbered_congr {lines lines' : List (List Char)}
    (h : lines.map Blank.trim = lines'.map Blank.trim) (n : Nat) :
    numbered n lines = numbered n lines' := by
  rw [numbered, numbered, h]

theorem cutText_of_not_mem {line : List Char} (h : '\n' ∉ line) (rest : List Char) :
    cutText (line ++ rest) =
      match (cutText rest).1 with
      | [] => ([], line ++ (cutText rest).2)
      | l :: ls => ((line ++ l) :: ls, (cutText rest).2) := by
  induction line with
  | nil =>
    rw [List.nil_append, ← Prod.mk.eta (p := cutText rest)]
    cases (cutText rest).1 <;> rfl
  | cons c line ih =>
    obtain ⟨hc, hline⟩ := not_or.mp (List.mem_cons.not.mp h)
    have hstep : cutText (c :: line ++ rest) = addChar c (cutText (line ++ rest)) := rfl
    rw [hstep, ih hline]
    cases (cutText rest).1 <;> simp [addChar, Ne.symm hc]

theorem cutText_lines {lines : List (List Char)} {rest : List Char}
    (hlines : ∀ line ∈ lines, '\n' ∉ line) (hrest : '\n' ∉ rest) :
    cutText ((lines.flatMap fun line => line ++ ['\n']) ++ rest) = (lines, rest) := by
  induction lines with
  | nil =>
    have hcut := cutText_of_not_mem hrest []
    simpa [cutText] using hcut
  | cons line lines ih =>
    have hline := cutText_of_not_mem (hlines line List.mem_cons_self)
    rw [List.flatMap_cons, List.append_assoc, List.append_assoc, hline]
    have hfeed : cutText (['\n'] ++ ((lines.flatMap fun line => line ++ ['\n']) ++ rest)) =
        ([] :: lines, rest) := by
      have hrest := ih fun l hl => hlines l (List.mem_cons_of_mem line hl)
      change addChar '\n' (cutText ((lines.flatMap fun line => line ++ ['\n']) ++ rest)) = _
      rw [hrest]
      rfl
    rw [hfeed]
    simp

theorem trim_chompText (line : List Char) : Blank.trim (chompText line) = Blank.trim line := by
  unfold chompText
  split
  next hlast =>
    obtain ⟨cs, rfl⟩ := List.getLast?_eq_some_iff.mp hlast
    rw [List.dropLast_concat, Blank.trim_append_right (List.forall_mem_singleton.mpr (by decide))]
  next => rfl

/-- A line of input with what surrounds the text that matters. -/
structure Dressed where
  before : List Char
  body : List Char
  behind : List Char
  /-- Whether a carriage return stands before the line feed. -/
  carriage : Bool
  before_blank : ∀ c ∈ before, Blank.isBlank c = true ∧ c ≠ '\n'
  body_line : '\n' ∉ body
  behind_blank : ∀ c ∈ behind, Blank.isBlank c = true ∧ c ≠ '\n'

namespace Dressed

def text (l : Dressed) : List Char :=
  l.before ++ l.body ++ l.behind ++ if l.carriage then ['\r'] else []

/-- A whole input. Its last line is ended by a line feed or by nothing. -/
def input (ended : Bool) (ls : List Dressed) : List Char :=
  let all := ls.flatMap fun l => l.text ++ ['\n']
  if ended then all else all.dropLast

theorem newline_not_mem_text (l : Dressed) : '\n' ∉ l.text := by
  intro hmem
  have hcases : '\n' ∈ l.before ∨ '\n' ∈ l.body ∨ '\n' ∈ l.behind := by
    unfold text at hmem
    cases l.carriage <;> simp at hmem <;> tauto
  rcases hcases with h | h | h
  · exact (l.before_blank _ h).2 rfl
  · exact l.body_line h
  · exact (l.behind_blank _ h).2 rfl

theorem trim_text (l : Dressed) : Blank.trim l.text = Blank.trim l.body := by
  have hend : ∀ c ∈ if l.carriage then ['\r'] else [], Blank.isBlank c = true := by
    split
    · exact List.forall_mem_singleton.mpr (by decide)
    · exact List.forall_mem_nil _
  rw [text, Blank.trim_append_right hend,
    Blank.trim_append_right fun c hc => (l.behind_blank c hc).1,
    Blank.trim_append_left fun c hc => (l.before_blank c hc).1]

theorem numbered_input (ended : Bool) (ls : List Dressed) :
    numbered 1 (ofText (input ended ls)) = numbered 1 (ls.map body) := by
  have hlines : ∀ ls : List Dressed, ∀ line ∈ ls.map text, '\n' ∉ line := by
    intro ls line hline
    obtain ⟨l, -, rfl⟩ := List.mem_map.mp hline
    exact l.newline_not_mem_text
  have hall : ∀ ls : List Dressed, (ls.flatMap fun l => l.text ++ ['\n']) =
      (ls.map text).flatMap fun line => line ++ ['\n'] := by
    intro ls
    rw [List.flatMap_map]
  have hmap : ∀ ls : List Dressed, (ls.map text).map (Blank.trim ∘ chompText) =
      (ls.map body).map Blank.trim := by
    intro ls
    simp [trim_chompText, trim_text, Function.comp_def]
  cases ended with
  | true =>
    have hcut : cutText (((ls.map text).flatMap fun line => line ++ ['\n']) ++ []) =
        (ls.map text, []) := cutText_lines (hlines ls) (by simp)
    rw [List.append_nil, ← hall] at hcut
    refine numbered_congr ?_ 1
    simp only [ofText, input, if_true, hcut, List.append_nil, List.map_map]
    simpa using hmap ls
  | false =>
    rcases List.eq_nil_or_concat' ls with rfl | ⟨ls, l, rfl⟩
    · rfl
    · have hinput : input false (ls ++ [l]) = (ls.flatMap fun l => l.text ++ ['\n']) ++ l.text := by
        simp [input, ← List.append_assoc]
      have hcut := cutText_lines (hlines ls) l.newline_not_mem_text
      rw [← hall] at hcut
      rw [hinput, ofText, hcut, List.map_append, numbered_append, numbered_append]
      have hfront : numbered 1 ((ls.map text).map chompText) = numbered 1 (ls.map body) := by
        refine numbered_congr ?_ 1
        rw [List.map_map]
        exact hmap ls
      rw [hfront]
      refine congrArg _ ?_
      simp only [List.length_map, List.map_singleton]
      by_cases hlast : l.text = []
      · have hbody : Blank.trim l.body = [] := by
          rw [← trim_text, hlast]
          rfl
        simp [hlast, numbered_cons, hbody]
      · simp [hlast, numbered_cons, trim_text]

end Dressed
end Lines
end PacedJobs
