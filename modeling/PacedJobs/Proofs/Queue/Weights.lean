import Mathlib.Tactic
import PacedJobs.Ticket

/-!
# Weights, and the jobs of tickets

Books on jobs are kept by weights. Lists that weigh the same whatever their elements are made to
weigh are equal up to the order, and the weight of a ticket in a list is how often its job stands
there. Jobs that are given up take the sending ends of their tickets with them.
-/

namespace PacedJobs

def weigh {α : Type} (f : α → Nat) (xs : List α) : Nat :=
  (xs.map f).sum

section Weigh

variable {α β : Type} (f : α → Nat)

@[simp] theorem weigh_nil : weigh f [] = 0 := rfl

@[simp] theorem weigh_cons (x : α) (xs : List α) : weigh f (x :: xs) = f x + weigh f xs := by
  simp [weigh]

@[simp] theorem weigh_append (xs ys : List α) : weigh f (xs ++ ys) = weigh f xs + weigh f ys := by
  simp [weigh]

variable {f}

theorem weigh_perm {xs ys : List α} (h : xs.Perm ys) : weigh f xs = weigh f ys :=
  (h.map f).sum_nat

theorem le_weigh {x : α} {xs : List α} (h : x ∈ xs) : f x ≤ weigh f xs := by
  obtain ⟨ys, zs, rfl⟩ := List.append_of_mem h
  simp only [weigh_append, weigh_cons]
  omega

theorem exists_of_weigh_ne_zero {xs : List α} (h : weigh f xs ≠ 0) : ∃ x ∈ xs, f x ≠ 0 := by
  induction xs with
  | nil => exact absurd rfl h
  | cons x xs ih =>
    by_cases hx : f x = 0
    · obtain ⟨y, hy, hne⟩ := ih (by simpa [hx] using h)
      exact ⟨y, List.mem_cons_of_mem x hy, hne⟩
    · exact ⟨x, List.mem_cons_self, hx⟩

theorem eq_of_weigh_le_one {xs : List α} (h : weigh f xs ≤ 1) {x y : α} (hx : x ∈ xs)
    (hy : y ∈ xs) (hfx : f x ≠ 0) (hfy : f y ≠ 0) : x = y := by
  obtain ⟨ys, zs, rfl⟩ := List.append_of_mem hx
  have hsides : weigh f ys = 0 ∧ weigh f zs = 0 := by
    simp only [weigh_append, weigh_cons] at h
    omega
  rcases List.mem_append.mp hy with hy | hy
  · have := le_weigh (f := f) hy
    omega
  · rcases List.mem_cons.mp hy with hy | hy
    · exact hy.symm
    · have := le_weigh (f := f) hy
      omega

theorem weigh_flatMap (g : β → List α) (ys : List β) :
    weigh f (ys.flatMap g) = weigh (fun y => weigh f (g y)) ys := by
  induction ys with
  | nil => rfl
  | cons y ys ih => rw [List.flatMap_cons, weigh_append, weigh_cons, ih]

theorem weigh_set {xs : List α} {i : Nat} {x : α} (hat : xs[i]? = some x) (y : α) :
    weigh f (xs.set i y) + f x = weigh f xs + f y := by
  induction xs generalizing i with
  | nil => simp at hat
  | cons z zs ih =>
    cases i with
    | zero =>
      simp only [List.getElem?_cons_zero, Option.some.injEq] at hat
      simp only [List.set_cons_zero, weigh_cons, hat]
      omega
    | succ i =>
      have := ih (i := i) (by simpa using hat)
      simp only [List.set_cons_succ, weigh_cons]
      omega

theorem weigh_flatMap_set (g : β → List α) {ys : List β} {i : Nat} {y : β}
    (hat : ys[i]? = some y) (y' : β) :
    weigh f ((ys.set i y').flatMap g) + weigh f (g y) =
      weigh f (ys.flatMap g) + weigh f (g y') := by
  rw [weigh_flatMap, weigh_flatMap]
  exact weigh_set hat y'

/-- What weighs the same under every weight is the same up to the order. -/
theorem perm_of_weigh {xs ys : List α} (h : ∀ f, weigh f xs = weigh f ys) : xs.Perm ys := by
  classical
  refine List.perm_iff_count.mpr fun x => ?_
  have hcount : ∀ zs : List α, weigh (fun y => if y == x then 1 else 0) zs = zs.count x := by
    intro zs
    induction zs with
    | nil => rfl
    | cons z zs ih =>
      rw [weigh_cons, ih, List.count_cons]
      omega
  rw [← hcount, ← hcount, h]

end Weigh

variable {π ω : Type}

namespace Work

variable (id : JobId) (priority : UInt16) (submittedAt : Nat) (taskCount : UInt32) (payload : π)
  (ticket : Nat)

@[simp] theorem id_ofTaskCount :
    (ofTaskCount id priority submittedAt taskCount payload ticket).id = id := by
  unfold ofTaskCount
  split <;> rfl

@[simp] theorem priority_ofTaskCount :
    (ofTaskCount id priority submittedAt taskCount payload ticket).priority = priority := by
  unfold ofTaskCount
  split <;> rfl

@[simp] theorem payload_ofTaskCount :
    (ofTaskCount id priority submittedAt taskCount payload ticket).payload = payload := by
  unfold ofTaskCount
  split <;> rfl

@[simp] theorem ticket_ofTaskCount :
    (ofTaskCount id priority submittedAt taskCount payload ticket).ticket = ticket := by
  unfold ofTaskCount
  split <;> rfl

end Work

def atTicket (n : Nat) (j : Job π) : Nat :=
  if j.ticket? = some n then 1 else 0

@[simp] theorem atTicket_placeholder (n : Nat) (id : JobId) :
    atTicket n (.placeholder id : Job π) = 0 := rfl

@[simp] theorem atTicket_work (n : Nat) (w : Work π) :
    atTicket n (.work w) = if w.ticket = n then 1 else 0 := by
  simp [atTicket, Job.ticket?, Job.work?]

@[simp] theorem weigh_atTicket_placeholders (n : Nat) (ids : List JobId) :
    weigh (atTicket n) (ids.map .placeholder : List (Job π)) = 0 := by
  induction ids with
  | nil => rfl
  | cons id ids ih => simp [ih]

namespace Tickets

variable {ts : Tickets ω}

theorem getElem?_drop (ts : Tickets ω) (j : Job π) (n : Nat) :
    (ts.drop j)[n]? = (ts[n]?).map fun t => if atTicket n j = 0 then t else t.dropSender := by
  unfold drop atTicket
  cases hj : j.ticket? with
  | none => simp
  | some m =>
    by_cases hm : m = n
    · subst hm
      simp
    · simp [hm]

/-- Jobs that are given up take the sending ends of their tickets away. -/
theorem getElem?_dropAll (ts : Tickets ω) (js : List (Job π)) (n : Nat) :
    (ts.dropAll js)[n]? =
      (ts[n]?).map fun t => if weigh (atTicket n) js = 0 then t else t.dropSender := by
  induction js generalizing ts with
  | nil => simp [dropAll]
  | cons j js ih =>
    have hstep := ih (ts.drop j)
    unfold dropAll at hstep ⊢
    rw [List.foldl_cons, hstep, getElem?_drop, Option.map_map]
    refine congrArg (fun g => (ts[n]?).map g) (funext fun t => ?_)
    rw [weigh_cons, Function.comp_apply]
    by_cases hj : atTicket n j = 0
    · simp [hj]
    · by_cases hjs : weigh (atTicket n) js = 0 <;> simp [hj, hjs, Ticket.dropSender]

@[simp] theorem length_dropAll (ts : Tickets ω) (js : List (Job π)) :
    (ts.dropAll js).length = ts.length := by
  induction js generalizing ts with
  | nil => rfl
  | cons j js ih =>
    have hstep := ih (ts.drop j)
    unfold dropAll at hstep ⊢
    rw [List.foldl_cons, hstep]
    unfold drop
    split <;> simp

end Tickets

end PacedJobs
