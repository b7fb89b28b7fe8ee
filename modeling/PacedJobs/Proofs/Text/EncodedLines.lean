import Mathlib.Tactic
import PacedJobs.Text.Lines

/-!
# Lines of encoded text

Bytes are cut into lines before they are decoded. For a text in UTF-8 this comes to the same as to
cut its characters: the bytes of a line feed and of a carriage return stand for nothing else, so
every line can be decoded.
-/

namespace PacedJobs
namespace Lines

def encode (cs : List Char) : List UInt8 :=
  cs.flatMap String.utf8EncodeChar

@[simp] theorem encode_nil : encode [] = [] := rfl

@[simp] theorem encode_cons (c : Char) (cs : List Char) :
    encode (c :: cs) = String.utf8EncodeChar c ++ encode cs := rfl

@[simp] theorem encode_append (cs ds : List Char) : encode (cs ++ ds) = encode cs ++ encode ds :=
  List.flatMap_append

theorem encode_toList (s : String) : encode s.toList = s.toByteArray.data.toList := by
  rw [← String.utf8Encode_toList, List.utf8Encode, List.toList_data_toByteArray, encode]

theorem encode_eq_nil_iff {cs : List Char} : encode cs = [] ↔ cs = [] := by
  cases cs with
  | nil => simp
  | cons c cs => simp [String.utf8EncodeChar_ne_nil]

theorem decode?_encode (cs : List Char) : decode? (encode cs) = some (String.ofList cs) := by
  have hbytes : ByteArray.mk (encode cs).toArray = cs.utf8Encode := by
    rw [List.utf8Encode]
    exact ByteArray.ext (by rw [List.data_toByteArray]; rfl)
  have hvalid : (ByteArray.mk (encode cs).toArray).IsValidUTF8 := ⟨cs, hbytes⟩
  rw [decode?, String.fromUTF8?, dif_pos hvalid]
  refine congrArg some (String.toByteArray_inj.mp ?_)
  rw [String.toByteArray_ofList]
  exact hbytes

theorem utf8EncodeChar_cases (c : Char) :
    c.toNat < 128 ∧ String.utf8EncodeChar c = [UInt8.ofNat c.toNat] ∨
      128 ≤ c.toNat ∧ ∀ b ∈ String.utf8EncodeChar c, 128 ≤ b.toNat := by
  have hsize : c.toNat < 0x110000 := by
    have := c.valid
    simp only [UInt32.isValidChar, Nat.isValidChar] at this
    have heq : c.toNat = c.val.toNat := rfl
    omega
  unfold String.utf8EncodeChar
  change _ ∨ _ ∧ ∀ b ∈ (if c.toNat ≤ 0x7f then _ else _), _
  by_cases hsmall : c.toNat ≤ 0x7f
  · exact .inl ⟨by omega, if_pos hsmall⟩
  · refine .inr ⟨by omega, ?_⟩
    rw [if_neg hsmall]
    intro b hb
    split at hb
    · simp only [List.mem_cons, List.not_mem_nil, or_false] at hb
      rcases hb with rfl | rfl <;> simp only [UInt8.toNat_ofNat'] <;> omega
    · split at hb
      all_goals simp only [List.mem_cons, List.not_mem_nil, or_false] at hb
      · rcases hb with rfl | rfl | rfl <;> simp only [UInt8.toNat_ofNat'] <;> omega
      · rcases hb with rfl | rfl | rfl | rfl <;> simp only [UInt8.toNat_ofNat'] <;> omega

theorem eq_of_mem_utf8EncodeChar {c d : Char} (hd : d.toNat < 128)
    (hmem : UInt8.ofNat d.toNat ∈ String.utf8EncodeChar c) : c = d := by
  have htoNat : (UInt8.ofNat d.toNat).toNat = d.toNat := by
    rw [UInt8.toNat_ofNat']
    omega
  rcases utf8EncodeChar_cases c with ⟨hc, heq⟩ | ⟨-, hlarge⟩
  · rw [heq, List.mem_singleton] at hmem
    have hcd := congrArg UInt8.toNat hmem
    rw [htoNat, UInt8.toNat_ofNat'] at hcd
    exact Char.toNat_inj.mp (by omega)
  · have := hlarge _ hmem
    omega

/-- Puts a character in front of lines and an unfinished rest. -/
def addChar (c : Char) (cut : List (List Char) × List Char) : List (List Char) × List Char :=
  if c = '\n' then ([] :: cut.1, cut.2)
  else
    match cut.1 with
    | [] => ([], c :: cut.2)
    | l :: ls => ((c :: l) :: ls, cut.2)

/-- Cuts characters into the lines that end in them and the unfinished rest. -/
def cutText (cs : List Char) : List (List Char) × List Char :=
  cs.foldr addChar ([], [])

def chompText (line : List Char) : List Char :=
  if line.getLast? = some '\r' then line.dropLast else line

def ofText (cs : List Char) : List (List Char) :=
  (cutText cs).1.map chompText ++ if (cutText cs).2 = [] then [] else [(cutText cs).2]

/-- Bytes that are no line feeds go to the front of the first line, or of the rest. -/
theorem foldr_addByte_of_not_mem {bs : List UInt8} (h : lineFeed ∉ bs)
    (cut : List (List UInt8) × List UInt8) :
    bs.foldr addByte cut =
      match cut.1 with
      | [] => ([], bs ++ cut.2)
      | l :: ls => ((bs ++ l) :: ls, cut.2) := by
  obtain ⟨lines, rest⟩ := cut
  induction bs with
  | nil => cases lines <;> rfl
  | cons b bs ih =>
    obtain ⟨hb, hbs⟩ := not_or.mp (List.mem_cons.not.mp h)
    rw [List.foldr_cons, ih hbs]
    cases lines <;> simp [addByte, Ne.symm hb]

theorem cut_encode (cs : List Char) :
    cut (encode cs) = ((cutText cs).1.map encode, encode (cutText cs).2) := by
  induction cs with
  | nil => rfl
  | cons c cs ih =>
    unfold cut at ih
    rw [encode_cons, cut, List.foldr_append, ih]
    unfold cutText
    rw [List.foldr_cons]
    by_cases hc : c = '\n'
    · subst hc
      rfl
    · have hmem : lineFeed ∉ String.utf8EncodeChar c :=
        fun hmem => hc (eq_of_mem_utf8EncodeChar (d := '\n') (by decide) hmem)
      rw [foldr_addByte_of_not_mem hmem, addChar, if_neg hc]
      cases (List.foldr addChar ([], []) cs).1 <;> rfl

theorem chomp_encode (line : List Char) : chomp (encode line) = encode (chompText line) := by
  rcases List.eq_nil_or_concat' line with rfl | ⟨cs, c, rfl⟩
  · rfl
  · unfold chomp chompText
    rw [encode_append, encode_cons, encode_nil, List.append_nil, List.getLast?_append,
      List.getLast?_concat]
    by_cases hc : c = '\r'
    · subst hc
      have hbyte : String.utf8EncodeChar '\r' = [carriageReturn] := rfl
      rw [hbyte]
      simp
    · have hlast : ((String.utf8EncodeChar c).getLast?.or (encode cs).getLast?) ≠
          some carriageReturn := by
        cases hb : (String.utf8EncodeChar c).getLast? with
        | none => exact absurd (List.getLast?_eq_none_iff.mp hb) String.utf8EncodeChar_ne_nil
        | some b =>
          rw [Option.some_or]
          intro heq
          cases heq
          exact hc (eq_of_mem_utf8EncodeChar (d := '\r') (by decide) (List.mem_of_getLast? hb))
      rw [if_neg hlast, if_neg (by simpa using hc)]
      simp

end Lines
end PacedJobs
