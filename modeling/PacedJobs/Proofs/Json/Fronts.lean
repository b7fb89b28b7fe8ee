import PacedJobs.Proofs.Json.NumberTexts
import PacedJobs.Proofs.Json.Values

/-!
# Documents that are cut off

A reader that takes a compact document misses something in every front of it: a front ends too
early, and only numbers have fronts that are numbers again. A document that the reader refuses is
refused whatever follows it. So a front is looked at only where the reader has come to it, and there
the text before it was taken.
-/

namespace PacedJobs
namespace Json

open Reader

/-! ### Fronts -/

/-- The text with at least one character missing at its end. -/
def CutFrom (p t : List Char) : Prop :=
  ∃ q, q ≠ [] ∧ t = p ++ q

section

variable {p s t : List Char} {c : Char}

theorem CutFrom.isPrefix (h : CutFrom p t) : p <+: t := by
  obtain ⟨q, -, rfl⟩ := h
  exact List.prefix_append p q

theorem CutFrom.length_lt (h : CutFrom p t) : p.length < t.length := by
  obtain ⟨q, hq, rfl⟩ := h
  have hpos := List.length_pos_iff.mpr hq
  rw [List.length_append]
  omega

theorem CutFrom.of_isPrefix (h : CutFrom p t) (hs : s <+: p) : CutFrom s t := by
  obtain ⟨q, hq, rfl⟩ := h
  obtain ⟨u, rfl⟩ := hs
  exact ⟨u ++ q, List.append_ne_nil_of_right_ne_nil u hq, List.append_assoc s u q⟩

theorem not_cutFrom_nil : ¬ CutFrom p [] := by
  rintro ⟨q, hq, hnil⟩
  exact hq (List.append_eq_nil_iff.mp hnil.symm).2

theorem CutFrom.append_cases (h : CutFrom p (s ++ t)) :
    CutFrom p s ∨ ∃ q, p = s ++ q ∧ CutFrom q t := by
  obtain ⟨r, hr, heq⟩ := h
  rcases List.append_eq_append_iff.mp heq with ⟨u, rfl, rfl⟩ | ⟨u, rfl, rfl⟩
  · exact .inr ⟨u, rfl, r, hr, rfl⟩
  · by_cases hu : u = []
    · subst hu
      exact .inr ⟨[], by simp, t, hr, rfl⟩
    · exact .inl ⟨u, hu, rfl⟩

theorem CutFrom.cons_cases (h : CutFrom p (c :: t)) : p = [] ∨ ∃ q, p = c :: q ∧ CutFrom q t := by
  rcases List.prefix_cons_iff.mp h.isPrefix with rfl | ⟨q, rfl, -⟩
  · exact .inl rfl
  · obtain ⟨r, hr, heq⟩ := h
    exact .inr ⟨q, rfl, r, hr, (List.cons.inj heq).2⟩

theorem Reader.Starts.of_cutFrom (h : Starts t) (hp : CutFrom p t) (hne : p ≠ []) : Starts p := by
  obtain ⟨c, u, rfl, hc⟩ := h
  rcases hp.cons_cases with rfl | ⟨q, rfl, -⟩
  · exact absurd rfl hne
  · exact ⟨c, q, rfl, hc⟩

end

/-! ### Words and strings -/

theorem short_readWord {p word : List Char} (h : CutFrom p word) : Short (readWord word p) := by
  induction word generalizing p with
  | nil => exact absurd h not_cutFrom_nil
  | cons c word ih =>
    rcases h.cons_cases with rfl | ⟨q, rfl, hq⟩
    · exact ⟨_, rfl, rfl⟩
    · simpa [readWord] using ih hq

namespace Escaped

theorem short_readHex {s : List Char} (hlength : s.length < 4) (hbytes : byteLength s < 4) :
    Short (readHex s) := by
  have hnone : hexValue? (s.take 4) = none := by
    rw [List.take_of_length_le hlength.le, Option.eq_none_iff_forall_ne_some]
    intro n hn
    exact hlength.ne (hexValue?_length hn)
  unfold readHex
  rw [hnone]
  exact ⟨_, if_pos hbytes, rfl⟩

theorem byteLength_eq_length {s : List Char} (h : ∀ c ∈ s, c.utf8Size = 1) :
    byteLength s = s.length := by
  induction s with
  | nil => rfl
  | cons c s ih =>
    obtain ⟨hc, hs⟩ := List.forall_mem_cons.mp h
    rw [byteLength, hc, ih hs, List.length_cons, Nat.add_comm]

theorem short_readUnicode {n : Nat} (hn : n < 0x20) {p : List Char}
    (hp : CutFrom p ['0', '0', Nat.digitChar (n / 16), Nat.digitChar (n % 16)]) :
    Short (readUnicode p) := by
  have hdigit : ∀ m < 16, (Nat.digitChar m).utf8Size = 1 := by decide
  have hsize : ∀ c ∈ ['0', '0', Nat.digitChar (n / 16), Nat.digitChar (n % 16)],
      c.utf8Size = 1 := by
    have hhigh := hdigit (n / 16) (by omega)
    have hlow := hdigit (n % 16) (by omega)
    simpa [hhigh, hlow] using (by decide : '0'.utf8Size = 1)
  have hlength : p.length < 4 := hp.length_lt
  have hbytes := byteLength_eq_length fun c hc => hsize c (hp.isPrefix.subset hc)
  exact (short_readHex hlength (hbytes.trans_lt hlength)).bind _

theorem short_readEscape {c : Char} {u p : List Char} (h : escapeChar c = '\\' :: u)
    (hp : CutFrom p u) : Short (readEscape p) := by
  have hsingle : ∀ {e : Char}, CutFrom p [e] → Short (readEscape p) := fun he => by
    rcases he.cons_cases with rfl | ⟨q, rfl, hq⟩
    · exact ⟨_, rfl, rfl⟩
    · exact absurd hq not_cutFrom_nil
  unfold escapeChar at h
  split at h
  case h_8 _ hslash _ _ _ _ _ =>
    split at h
    next hlow =>
      cases h
      rcases hp.cons_cases with rfl | ⟨q, rfl, hq⟩
      · exact ⟨_, rfl, rfl⟩
      · exact short_readUnicode hlow hq
    next => exact absurd (List.cons.inj h).1 hslash
  all_goals
    cases h
    exact hsingle hp

theorem short_readChars (cs : List Char) {n : Nat} {p : List Char}
    (h : CutFrom p (cs.flatMap escapeChar ++ ['"'])) : Short (readChars n p) := by
  induction cs generalizing n p with
  | nil =>
    rcases h.cons_cases with rfl | ⟨q, rfl, hq⟩
    · cases n <;> exact ⟨_, rfl, rfl⟩
    · exact absurd hq not_cutFrom_nil
  | cons c cs ih =>
    cases n with
    | zero => exact ⟨_, rfl, rfl⟩
    | succ n =>
      rw [List.flatMap_cons, List.append_assoc] at h
      have hspelled := spelled_escapeChar c
      rcases h.append_cases with hp | ⟨q, rfl, hq⟩
      · rcases hspelled.cases_head with ⟨u, hu⟩ | ⟨hc, -⟩
        · rw [hu] at hp
          rcases hp.cons_cases with rfl | ⟨q, rfl, hq⟩
          · exact ⟨_, rfl, rfl⟩
          · exact (short_readEscape hu hq).bind _
        · rw [hc] at hp
          rcases hp.cons_cases with rfl | ⟨q, rfl, hq⟩
          · exact ⟨_, rfl, rfl⟩
          · exact absurd hq not_cutFrom_nil
      · rw [readChars_spelled hspelled]
        exact (ih hq).bind _

theorem short_readRest (s : String) {bound : Nat} {p : List Char}
    (h : CutFrom p (s.toList.flatMap escapeChar ++ ['"'])) : Short (readRest bound p) :=
  (short_readChars s.toList h).bind _

end Escaped

theorem short_readKey {k : String} {bound : Nat} {p : List Char} (h : CutFrom p (Escaped.write k))
    (hne : p ≠ []) : Short (readKey bound p) := by
  rcases h.cons_cases with rfl | ⟨q, rfl, hq⟩
  · exact absurd rfl hne
  · exact Escaped.short_readRest k hq

/-! ### Texts that are taken or refused -/

section

variable {α β : Type}

/-- What a reader makes of a text. The readers differ in the bound that they take. -/
inductive Settled (item : Nat → List Char → Except Fault (α × List Char)) (t : List Char) : Prop
  | taken (x : α) :
      (∀ {bound rest}, Reader.Stop rest → (t ++ rest).length ≤ bound →
        item bound (t ++ rest) = .ok (x, rest)) →
      (∀ {bound p}, CutFrom p t → p ≠ [] → p.length ≤ bound → Cut (item bound p)) → Settled item t
  | refused :
      (∀ {bound rest}, Reader.Stop rest → (t ++ rest).length ≤ bound →
        ∃ f, item bound (t ++ rest) = .error f) → Settled item t

/-- The same for a text that ends with the bracket that the reader looks for. Nothing can go on
with it, and no front of it is enough. The bound need not count its first character, which is a
comma or the bracket. -/
inductive Closed (more : Nat → Nat → List Char → Except Fault (α × List Char)) (t : List Char) :
    Prop
  | taken (x : α) :
      (∀ {bound n rest}, (t ++ rest).length ≤ bound + 1 → t.length ≤ n →
        more bound n (t ++ rest) = .ok (x, rest)) →
      (∀ {bound n p}, CutFrom p t → p.length ≤ bound + 1 → Short (more bound n p)) → Closed more t
  | refused :
      (∀ {bound n rest}, (t ++ rest).length ≤ bound + 1 →
        ∃ f, more bound n (t ++ rest) = .error f) → Closed more t

/-- The rules of a loop over entries with commas between them. -/
structure Loop (close : Char) (entry : Nat → List Char → Except Fault (α × List Char))
    (more : Nat → Nat → List Char → Except Fault (List α × List Char)) : Prop where
  bounded : ∀ bound s, Short (more bound 0 s)
  ended : ∀ bound n, Short (more bound n [])
  ended_comma : ∀ bound n, Short (more bound n [','])
  closed : ∀ bound n s, more bound (n + 1) (close :: s) = .ok ([], s)
  comma : ∀ bound n {s}, Starts s → more bound (n + 1) (',' :: s) =
    entry bound s >>= fun r => more bound n r.2 >>= fun rs => pure (r.1 :: rs.1, rs.2)

theorem Reader.Starts.append {t : List Char} (h : Starts t) (s : List Char) : Starts (t ++ s) := by
  obtain ⟨c, u, rfl, hc⟩ := h
  exact ⟨c, u ++ s, rfl, hc⟩

theorem Reader.Stop.of_isPrefix {s t : List Char} (h : Reader.Stop t) (hs : s <+: t) :
    Reader.Stop s := by
  obtain ⟨u, rfl⟩ := hs
  cases s with
  | nil => exact fun c hc => by cases hc
  | cons c s => exact h

section

variable {close : Char} {entry : Nat → List Char → Except Fault (α × List Char)}
  {more : Nat → Nat → List Char → Except Fault (List α × List Char)}

/-- One round of a loop, in which the entry is read and what follows it. -/
theorem Loop.closed_cons (h : Loop close entry more) {t u : List Char} (ht : Settled entry t)
    (hstarts : Starts t) (hstop : ∀ rest, Reader.Stop (u ++ rest)) (hu : Closed more u) :
    Closed more (',' :: (t ++ u)) := by
  have hsplit : ∀ rest, ',' :: (t ++ u) ++ rest = ',' :: (t ++ (u ++ rest)) := by simp
  have hround := fun bound n rest => h.comma bound n (hstarts.append (u ++ rest))
  have hrefused : (∀ {bound n rest}, (',' :: (t ++ u) ++ rest).length ≤ bound + 1 →
      ∃ f, more bound (n + 1) (',' :: (t ++ u) ++ rest) = .error f) →
        Closed more (',' :: (t ++ u)) := fun herror => .refused fun {bound n rest} hbound => by
      cases n with
      | zero => exact (h.bounded bound _).imp fun _ => And.left
      | succ n => exact herror hbound
  cases ht with
  | refused herror =>
    refine hrefused fun {bound n rest} hbound => ?_
    rw [hsplit] at hbound ⊢
    obtain ⟨f, hf⟩ := herror (hstop rest) (Nat.le_of_succ_le_succ hbound)
    refine ⟨f, ?_⟩
    rw [hround, hf]
    rfl
  | taken x hread hfronts =>
    cases hu with
    | refused herror =>
      refine hrefused fun {bound n rest} hbound => ?_
      rw [hsplit] at hbound ⊢
      have hlength := Nat.le_of_succ_le_succ hbound
      have hrest : (u ++ rest).length ≤ bound + 1 := by
        rw [List.length_append] at hlength
        omega
      obtain ⟨f, hf⟩ := herror hrest (n := n)
      refine ⟨f, ?_⟩
      rw [hround, hread (hstop rest) hlength, ok_bind, hf]
      rfl
    | taken xs hreads hshort =>
      refine .taken (x :: xs) (fun {bound n rest} hbound hn => ?_) fun {bound n p} hp hbound => ?_
      · obtain ⟨n, rfl⟩ := Nat.exists_eq_add_one_of_ne_zero (Nat.ne_zero_of_lt hn)
        rw [hsplit] at hbound ⊢
        have hlength := Nat.le_of_succ_le_succ hbound
        have hrest : (u ++ rest).length ≤ bound + 1 := by
          rw [List.length_append] at hlength
          omega
        have hn' : u.length ≤ n := by
          simp only [List.length_cons, List.length_append] at hn
          omega
        rw [hround, hread (hstop rest) hlength, ok_bind, hreads hrest hn']
        rfl
      · rcases hp.cons_cases with rfl | ⟨q, rfl, hq⟩
        · exact h.ended bound n
        have hlength : q.length ≤ bound := Nat.le_of_succ_le_succ hbound
        by_cases hne : q = []
        · rw [hne]
          exact h.ended_comma bound n
        cases n with
        | zero => exact h.bounded bound _
        | succ n =>
          rcases hq.append_cases with hq | ⟨v, rfl, hv⟩
          · rw [h.comma bound n (hstarts.of_cutFrom hq hne)]
            rcases hfronts hq hne hlength with ⟨y, hy⟩ | hshort
            · rw [hy, ok_bind]
              exact (h.ended bound n).bind _
            · exact hshort.bind _
          · have hstop' : Reader.Stop v := (hstop []).of_isPrefix (by simpa using hv.isPrefix)
            rw [h.comma bound n (hstarts.append v), hread hstop' hlength, ok_bind]
            rw [List.length_append] at hlength
            exact (hshort hv (by omega)).bind _

theorem Loop.closed_flatMap (h : Loop close entry more)
    (hclose : close = ']' ∨ close = '}') {ts : List (List Char)}
    (hts : ∀ t ∈ ts, Settled entry t ∧ Starts t) :
    Closed more (ts.flatMap (',' :: ·) ++ [close]) := by
  induction ts with
  | nil =>
    refine .taken [] (fun {bound n rest} _ hn => ?_) fun {bound n p} hp _ => ?_
    · obtain ⟨m, rfl⟩ := Nat.exists_eq_add_one_of_ne_zero (Nat.ne_zero_of_lt hn)
      exact h.closed bound m rest
    · rcases hp.cons_cases with rfl | ⟨q, rfl, hq⟩
      · exact h.ended bound n
      · exact absurd hq not_cutFrom_nil
  | cons t ts ih =>
    obtain ⟨⟨ht, hstarts⟩, hts⟩ := List.forall_mem_cons.mp hts
    have hstop : ∀ rest, Reader.Stop (ts.flatMap (',' :: ·) ++ [close] ++ rest) := fun rest => by
      simpa using stop_series white_nil ts hclose rest
    simpa using h.closed_cons ht hstarts hstop (ih hts)

/-- The rules of what is read behind an opening bracket, before the first entry and with it. -/
structure Bracket (close : Char)
    (more : Nat → Nat → List Char → Except Fault (List α × List Char))
    (opened : Nat → List Char → Except Fault (List α × List Char)) : Prop where
  ended : ∀ bound, Short (opened bound [])
  closed : ∀ bound s, opened bound (close :: s) = .ok ([], s)
  first : ∀ bound {s}, Starts s → opened bound s = more bound (bound + 1) (',' :: s)

variable {opened : Nat → List Char → Except Fault (List α × List Char)}
  {item : Nat → List Char → Except Fault (β × List Char)} {bracket : Char} {f : List α → β}

theorem Bracket.settled_nil (h : Bracket close more opened) (hitem : ∀ bound s,
    item bound (bracket :: s) = opened bound s >>= fun r => pure (f r.1, r.2)) :
    Settled item [bracket, close] := by
  refine .taken (f []) (fun {bound rest} _ _ => ?_) fun {bound p} hp hne _ => ?_
  · rw [List.cons_append, hitem, List.cons_append, h.closed, ok_bind]
    rfl
  · rcases hp.cons_cases with rfl | ⟨q, rfl, hq⟩
    · exact absurd rfl hne
    rcases hq.cons_cases with rfl | ⟨v, rfl, hv⟩
    · rw [hitem]
      exact .inr ((h.ended bound).bind _)
    · exact absurd hv not_cutFrom_nil

theorem Bracket.settled_cons (h : Bracket close more opened) (hitem : ∀ bound s,
    item bound (bracket :: s) = opened bound s >>= fun r => pure (f r.1, r.2)) {t : List Char}
    (hstarts : Starts t) (hclosed : Closed more (',' :: t)) : Settled item (bracket :: t) := by
  have hopened : ∀ bound rest, item bound (bracket :: t ++ rest) =
      more bound (bound + 1) (',' :: t ++ rest) >>= fun r => pure (f r.1, r.2) :=
    fun bound rest => by rw [List.cons_append, hitem, h.first bound (hstarts.append rest)]; rfl
  cases hclosed with
  | refused herror =>
    refine .refused fun {bound rest} _ hbound => ?_
    obtain ⟨e, he⟩ := herror (n := bound + 1) (hbound.trans (Nat.le_succ bound))
    refine ⟨e, ?_⟩
    rw [hopened, he]
    rfl
  | taken xs hread hshort =>
    refine .taken (f xs) (fun {bound rest} _ hbound => ?_) fun {bound p} hp hne hbound => ?_
    · have hlength : (',' :: t).length ≤ bound + 1 := by
        simp only [List.cons_append, List.length_cons, List.length_append] at hbound ⊢
        omega
      rw [hopened, hread (hbound.trans (Nat.le_succ bound)) hlength]
      rfl
    · rcases hp.cons_cases with rfl | ⟨q, rfl, hq⟩
      · exact absurd rfl hne
      rw [hitem]
      refine .inr (Short.bind ?_ _)
      by_cases hne' : q = []
      · rw [hne']
        exact h.ended bound
      · rw [h.first bound (hstarts.of_cutFrom hq hne')]
        obtain ⟨r, hr, rfl⟩ := hq
        exact hshort ⟨r, hr, rfl⟩ (hbound.trans (Nat.le_succ bound))

theorem Bracket.settled_entries (h : Bracket close more opened) (hloop : Loop close entry more)
    (hitem : ∀ bound s, item bound (bracket :: s) = opened bound s >>= fun r => pure (f r.1, r.2))
    (hclose : close = ']' ∨ close = '\x7d') {t : List Char} {ts : List (List Char)}
    (hts : ∀ u ∈ t :: ts, Settled entry u ∧ Starts u) :
    Settled item (bracket :: (t ++ (ts.flatMap (',' :: ·) ++ [close]))) := by
  have hclosed := hloop.closed_flatMap hclose hts
  have hstarts := (List.forall_mem_cons.mp hts).1.2
  exact h.settled_cons hitem (hstarts.append _) (by simpa using hclosed)

end

/-! ### The loops of the reader -/

theorem loop_moreItems (item : Nat → List Char → Except Fault (α × List Char)) :
    Loop ']' item (fun bound => moreItems (item bound)) where
  bounded _ _ := ⟨_, rfl, rfl⟩
  ended _ n := by cases n <;> exact ⟨_, rfl, rfl⟩
  ended_comma _ n := by cases n <;> exact ⟨_, rfl, rfl⟩
  closed _ _ _ := rfl
  comma bound n s hs := by
    obtain ⟨c, u, rfl, hspace, -, hbracket, -⟩ := hs
    have hcomma : skipSpace (',' :: c :: u) = ',' :: c :: u := rfl
    conv_lhs => unfold moreItems
    simp only [hcomma, skipSpace_cons hspace]
    split
    next heq => cases heq
    next heq => exact absurd (List.cons.inj heq).1 hbracket
    next => rfl

theorem bracket_readItems (item : Nat → List Char → Except Fault (α × List Char)) :
    Bracket ']' (fun bound => moreItems (item bound))
      (fun bound => readItems bound (item bound)) where
  ended _ := ⟨_, rfl, rfl⟩
  closed _ _ := rfl
  first bound s hs := by
    rw [(loop_moreItems item).comma bound bound hs]
    obtain ⟨c, u, rfl, hspace, -, hbracket, -⟩ := hs
    unfold readItems
    simp only [skipSpace_cons hspace]
    split
    next heq => cases heq
    next heq => exact absurd (List.cons.inj heq).1 hbracket
    next => rfl

section

variable {σ : Type} {member : Nat → σ → String → List Char → Except Fault (α × σ × List Char)}
  {plain : Nat → String → List Char → Except Fault (α × List Char)} {state : σ}

theorem loop_moreMembers (hplain : ∀ bound k s, member bound state k s =
    plain bound k s >>= fun r => pure (r.1, state, r.2)) :
    Loop '\x7d' (fun bound s => readKey bound s >>= fun r => plain bound r.1 r.2)
      (fun bound n => moreMembers bound (member bound) n state) where
  bounded _ _ := ⟨_, rfl, rfl⟩
  ended _ n := by cases n <;> exact ⟨_, rfl, rfl⟩
  ended_comma _ n := by cases n <;> exact ⟨_, rfl, rfl⟩
  closed _ _ _ := rfl
  comma bound n s hs := by
    obtain ⟨c, u, rfl, hspace, -, -, hbrace⟩ := hs
    have hcomma : skipSpace (',' :: c :: u) = ',' :: c :: u := rfl
    conv_lhs => unfold moreMembers
    simp only [hcomma, skipSpace_cons hspace]
    split
    next heq => cases heq
    next heq => exact absurd (List.cons.inj heq).1 hbrace
    next => simp only [hplain, bind_assoc, pure_bind]

/-- The first member changes the state, whatever the loop does then. -/
theorem readMembers_eq {member : σ → String → List Char → Except Fault (α × σ × List Char)}
    {bound : Nat} {s : List Char} (hs : Starts s) : readMembers bound member state s =
      readKey bound s >>= fun r => member state r.1 r.2 >>= fun m =>
        moreMembers bound member bound m.2.1 m.2.2 >>= fun rs => pure (m.1 :: rs.1, rs.2) := by
  obtain ⟨c, u, rfl, hspace, -, -, hbrace⟩ := hs
  unfold readMembers
  simp only [skipSpace_cons hspace]
  split
  next heq => cases heq
  next heq => exact absurd (List.cons.inj heq).1 hbrace
  next => rfl

theorem bracket_readMembers (hplain : ∀ bound k s, member bound state k s =
    plain bound k s >>= fun r => pure (r.1, state, r.2)) :
    Bracket '\x7d' (fun bound n => moreMembers bound (member bound) n state)
      (fun bound => readMembers bound (member bound) state) where
  ended _ := ⟨_, rfl, rfl⟩
  closed _ _ := rfl
  first bound s hs := by
    rw [(loop_moreMembers hplain).comma bound bound hs, readMembers_eq hs]
    simp only [hplain, bind_assoc, pure_bind]

end

theorem Settled.member {item : Nat → List Char → Except Fault (α × List Char)}
    {plain : Nat → String → List Char → Except Fault (β × List Char)} {k : String}
    {f : String × α → β} (hplain : ∀ bound s, plain bound k s =
      readMember (item bound) k s >>= fun r => pure (f r.1, r.2))
    (hnil : ∀ bound, Short (item bound [])) {t : List Char} (ht : Settled item t) :
    Settled (fun bound s => readKey bound s >>= fun r => plain bound r.1 r.2)
      (Escaped.write k ++ ':' :: t) := by
  have hkey : ∀ {bound s}, (Escaped.write k ++ s).length ≤ bound →
      (readKey bound (Escaped.write k ++ s) >>= fun r => plain bound r.1 r.2) =
        readColon s >>= fun s => item bound s >>= fun r => pure (f (k, r.1), r.2) := by
    intro bound s hbound
    rw [readKey_complete (Escaped.quoted_write k) hbound, ok_bind, hplain, readMember]
    simp only [bind_assoc, pure_bind]
  have hcolon : ∀ s, readColon (':' :: s) = .ok s := fun _ => rfl
  have hsplit : ∀ rest, Escaped.write k ++ ':' :: t ++ rest =
      Escaped.write k ++ ':' :: (t ++ rest) := by simp
  have hlength : ∀ {bound : Nat} {s}, (Escaped.write k ++ ':' :: s).length ≤ bound →
      s.length ≤ bound := fun {bound s} h => by
    simp only [List.length_append, List.length_cons] at h
    omega
  cases ht with
  | refused herror =>
    refine .refused fun {bound rest} hstop hbound => ?_
    rw [hsplit] at hbound ⊢
    obtain ⟨e, he⟩ := herror hstop (hlength hbound)
    refine ⟨e, ?_⟩
    rw [hkey hbound, hcolon, ok_bind, he]
    rfl
  | taken x hread hfronts =>
    refine .taken (f (k, x)) (fun {bound rest} hstop hbound => ?_) fun {bound p} hp hne hbound => ?_
    · rw [hsplit] at hbound ⊢
      rw [hkey hbound, hcolon, ok_bind, hread hstop (hlength hbound)]
      rfl
    · rcases hp.append_cases with hp | ⟨q, rfl, hq⟩
      · exact .inr ((short_readKey hp hne).bind _)
      rw [hkey hbound]
      rcases hq.cons_cases with rfl | ⟨v, rfl, hv⟩
      · exact .inr (Short.bind ⟨_, rfl, rfl⟩ _)
      rw [hcolon, ok_bind]
      by_cases hne' : v = []
      · rw [hne']
        exact .inr ((hnil bound).bind _)
      · rcases hfronts hv hne' (hlength hbound) with ⟨y, hy⟩ | hshort
        · exact .inl ⟨f (k, y), by rw [hy]; rfl⟩
        · exact .inr (hshort.bind _)

end

/-! ### Values -/

theorem short_value_nil (bound d : Nat) : Short (value bound d []) := by
  cases d <;> exact ⟨_, rfl, rfl⟩

/-- A value that does not start with a bracket is read as a scalar at any depth. -/
theorem value_cons {c : Char} (hspace : isSpace c = false) (hbracket : c ≠ '[')
    (hbrace : c ≠ '\x7b') (bound d : Nat) (s : List Char) :
    value bound d (c :: s) = readScalar bound (c :: s) := by
  refine value_eq_readScalar (fun e he => ?_) (skipSpace_cons hspace s) d
  cases he
  exact ⟨hbracket, hbrace⟩

theorem settled_word {c : Char} {word : List Char} {v : Json} {d : Nat} (hword : ∀ bound s,
    value bound d (c :: s) = readWord word s >>= fun s => pure (v, s)) :
    Settled (fun bound => value bound d) (c :: word) := by
  refine .taken v (fun {bound rest} _ _ => ?_) fun {bound p} hp hne _ => ?_
  · rw [List.cons_append, hword, readWord_eq_ok_iff.mpr rfl]
    rfl
  · rcases hp.cons_cases with rfl | ⟨q, rfl, hq⟩
    · exact absurd rfl hne
    · rw [hword]
      exact .inr ((short_readWord hq).bind _)

theorem settled_string (s : String) (d : Nat) :
    Settled (fun bound => value bound d) (Escaped.write s) := by
  have hvalue : ∀ bound u, value bound d ('"' :: u) =
      Escaped.readRest bound u >>= fun r => pure (.string r.1, r.2) := fun bound u =>
    value_cons (by decide) (by decide) (by decide) bound d u
  refine .taken (.string s) (fun {bound rest} hstop hbound => ?_) fun {bound p} hp hne _ => ?_
  · exact value_complete_scalar (.string (Escaped.quoted_write s)) rfl hstop hbound d
  · rcases hp.cons_cases with rfl | ⟨q, rfl, hq⟩
    · exact absurd rfl hne
    · rw [hvalue]
      exact .inr ((Escaped.short_readRest s hq).bind _)

theorem settled_number {l : Literal} {t : List Char} (h : l.Written t) (hplain : l.Plain)
    (d : Nat) : Settled (fun bound => value bound d) t := by
  obtain ⟨c, u, rfl, hspace, -⟩ := h.starts
  have hc : c = '-' ∨ Digits.isDigit c = true := by
    obtain ⟨c', u', heq, hc⟩ := h.head
    cases heq
    exact hc
  have hbracket : c ≠ '[' ∧ c ≠ '\x7b' := by
    constructor <;> rintro rfl <;> revert hc <;> decide
  have hvalue : ∀ bound s, value bound d (c :: s) = readNumber (c :: s) := fun bound s => by
    rw [value_cons hspace hbracket.1 hbracket.2, readScalar_number hc]
  cases hnumber : l.number? with
  | none =>
    refine .refused fun {bound rest} hstop _ => ?_
    rw [List.cons_append, hvalue, ← List.cons_append, readNumber, h.read_eq hstop.break, ok_bind]
    simp only [hnumber]
    exact ⟨_, rfl⟩
  | some v =>
    refine .taken v (fun {bound rest} hstop _ => ?_) fun {bound p} hp hne _ => ?_
    · rw [List.cons_append, hvalue, ← List.cons_append]
      exact h.readNumber_eq (Literal.number?_eq_some_iff.mp hnumber) hstop.break
    · have hcut := h.cut_readNumber (by simp [hnumber]) hplain hp.isPrefix hne
      rcases hp.cons_cases with rfl | ⟨q, rfl, -⟩
      · exact absurd rfl hne
      · rwa [hvalue]

theorem starts_compact (v : Json) : Starts v.compact := by
  cases v with
  | null => exact ⟨'n', _, rfl, by decide, by decide, by decide, by decide⟩
  | bool b => cases b <;> exact ⟨_, _, rfl, by decide, by decide, by decide, by decide⟩
  | integer n => exact (Literal.written_integerText n).starts
  | double x =>
    obtain ⟨l, hl, -⟩ := Literal.exists_written_text x
    exact hl.starts
  | string s => exact ⟨'"', _, rfl, by decide, by decide, by decide, by decide⟩
  | array vs => cases vs <;> exact ⟨'[', _, rfl, by decide, by decide, by decide, by decide⟩
  | object ms => cases ms <;> exact ⟨'\x7b', _, rfl, by decide, by decide, by decide, by decide⟩

theorem starts_compactMember (m : String × Json) : Starts (compactMember m) :=
  ⟨'"', _, rfl, by decide, by decide, by decide, by decide⟩

/-- The reader of the members of an object, in which the given number of brackets may be open. -/
def entryAt (d bound : Nat) : List Char → Except Fault ((String × Json) × List Char) :=
  entry bound (value bound d)

theorem settled_member {m : String × Json} {d : Nat}
    (h : Settled (fun bound => value bound d) m.2.compact) :
    Settled (entryAt d) (compactMember m) := by
  have hplain : ∀ bound s, readMember (value bound d) m.1 s =
      readMember (value bound d) m.1 s >>= fun r => pure (id r.1, r.2) := fun bound s => by simp
  exact Settled.member hplain (fun bound => short_value_nil bound d) h

/-- The member of an object, with the state that a plain one does not need. -/
def memberAt (d bound : Nat) (state : Unit) (k : String) (s : List Char) :
    Except Fault ((String × Json) × Unit × List Char) := do
  let (m, s) ← readMember (value bound d) k s
  return (m, state, s)

theorem loop_members (d : Nat) :
    Loop '\x7d' (entryAt d) fun bound n => moreMembers bound (memberAt d bound) n () :=
  loop_moreMembers fun _ _ _ => rfl

theorem bracket_members (d : Nat) :
    Bracket '\x7d' (fun bound n => moreMembers bound (memberAt d bound) n ())
      fun bound => readMembers bound (memberAt d bound) () :=
  bracket_readMembers fun _ _ _ => rfl

theorem value_bracket (d bound : Nat) (s : List Char) : value bound (d + 1) ('[' :: s) =
    readItems bound (value bound d) s >>= fun r => pure (.array r.1, r.2) :=
  rfl

theorem value_brace (d bound : Nat) (s : List Char) : value bound (d + 1) ('\x7b' :: s) =
    readMembers bound (memberAt d bound) () s >>= fun r => pure (.object r.1, r.2) :=
  rfl

mutual

/-- The compact form of a value is taken or refused as a whole, and its fronts are too short. -/
theorem settled_compact : ∀ (v : Json) (d : Nat), Settled (fun bound => value bound d) v.compact
  | .null, d => settled_word fun bound s =>
    value_cons (by decide) (by decide) (by decide) bound d s
  | .bool true, d => settled_word fun bound s =>
    value_cons (by decide) (by decide) (by decide) bound d s
  | .bool false, d => settled_word fun bound s =>
    value_cons (by decide) (by decide) (by decide) bound d s
  | .integer n, d => settled_number (Literal.written_integerText n) (Literal.plain_ofInt n) d
  | .double x, d => by
    obtain ⟨l, hl, hplain⟩ := Literal.exists_written_text x
    exact settled_number hl hplain d
  | .string s, d => settled_string s d
  | .array [], 0 => .refused fun _ _ => ⟨_, rfl⟩
  | .array (v :: vs), 0 => .refused fun _ _ => ⟨_, rfl⟩
  | .array [], d + 1 => (bracket_readItems _).settled_nil (value_bracket d)
  | .array (v :: vs), d + 1 => by
    have hitems := List.forall_mem_cons.mpr
      ⟨⟨settled_compact v d, starts_compact v⟩, settled_items vs d⟩
    have harray : Settled (fun bound => value bound (d + 1))
        ('[' :: (v.compact ++ ((vs.map compact).flatMap (',' :: ·) ++ [']']))) :=
      (bracket_readItems _).settled_entries (loop_moreItems _) (value_bracket d) (.inl rfl) hitems
    simpa [compact, compactItems_eq] using harray
  | .object [], 0 => .refused fun _ _ => ⟨_, rfl⟩
  | .object (m :: ms), 0 => .refused fun _ _ => ⟨_, rfl⟩
  | .object [], d + 1 => (bracket_members d).settled_nil (value_brace d)
  | .object ((k, v) :: ms), d + 1 => by
    have hmember : Settled (entryAt d) (compactMember (k, v)) :=
      settled_member (settled_compact v d)
    have hmembers := List.forall_mem_cons.mpr
      ⟨⟨hmember, starts_compactMember (k, v)⟩, settled_members ms d⟩
    have hobject : Settled (fun bound => value bound (d + 1)) ('\x7b' ::
        (compactMember (k, v) ++ ((ms.map compactMember).flatMap (',' :: ·) ++ ['\x7d']))) :=
      (bracket_members d).settled_entries (loop_members d) (value_brace d) (.inr rfl) hmembers
    simpa [compact, compactMember, compactMembers_eq] using hobject

theorem settled_items : ∀ (vs : List Json) (d : Nat), ∀ t ∈ vs.map compact,
    Settled (fun bound => value bound d) t ∧ Starts t
  | [], _ => List.forall_mem_nil _
  | v :: vs, d =>
    List.forall_mem_cons.mpr ⟨⟨settled_compact v d, starts_compact v⟩, settled_items vs d⟩

theorem settled_members : ∀ (ms : List (String × Json)) (d : Nat), ∀ t ∈ ms.map compactMember,
    Settled (entryAt d) t ∧ Starts t
  | [], _ => List.forall_mem_nil _
  | (k, v) :: ms, d => List.forall_mem_cons.mpr
    ⟨⟨settled_member (settled_compact v d), starts_compactMember (k, v)⟩, settled_members ms d⟩

end

end Json
end PacedJobs
