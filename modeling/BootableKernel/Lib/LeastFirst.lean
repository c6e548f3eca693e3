import Mathlib.Data.List.ReduceOption
import Mathlib.Order.Bounds.Basic

/-!
# Giving out least elements first

A request names a set. It is answered with the least element of the set that was not given
out before, or with nothing when all of them were. Nothing is ever taken back.

Requests may name different sets that overlap, and the elements given out are distinct all
the same.

## Main definitions

* `Answer` — the answer to one request.
* `Run` — requests with their answers, in order.
-/

namespace LeastFirst

variable {α : Type*} [Preorder α]

/-- The answer to a request for an element of `s`, when the elements of `given` are out. -/
def Answer (given : List α) (s : Set α) : Option α → Prop
  | none => s ⊆ {x | x ∈ given}
  | some a => IsLeast (s \ {x | x ∈ given}) a

/-- Requests and their answers. -/
inductive Run : List (Set α) → List (Option α) → Prop
  | nil : Run [] []
  | snoc {requests : List (Set α)} {answers : List (Option α)} {s : Set α} {a : Option α}
      (h : Run requests answers) (ha : Answer answers.reduceOption s a) :
      Run (requests ++ [s]) (answers ++ [a])

variable {requests : List (Set α)} {answers : List (Option α)}

theorem Run.length_eq (h : Run requests answers) : answers.length = requests.length := by
  induction h with
  | nil => rfl
  | snoc h ha ih => rw [List.length_append, List.length_append, ih]; rfl

/-- No element is given out twice. -/
theorem Run.nodup (h : Run requests answers) : answers.reduceOption.Nodup := by
  induction h with
  | nil => exact List.nodup_nil
  | @snoc requests answers s a h ha ih =>
      rw [List.reduceOption_append]
      cases a with
      | none => simpa using ih
      | some a =>
          have hnew : a ∉ answers.reduceOption := ha.1.2
          simpa [List.nodup_append] using ⟨ih, fun x hx heq => hnew (heq ▸ hx)⟩

/-- An element that is given out was asked for. -/
theorem Run.exists_mem (h : Run requests answers) {a : α} (ha : a ∈ answers.reduceOption) :
    ∃ s ∈ requests, a ∈ s := by
  induction h with
  | nil => cases ha
  | @snoc requests answers s b h hb ih =>
      rw [List.reduceOption_append, List.mem_append] at ha
      cases ha with
      | inl hold =>
          obtain ⟨t, ht, hat⟩ := ih hold
          exact ⟨t, List.mem_append_left _ ht, hat⟩
      | inr hnew =>
          rw [List.reduceOption_mem_iff, List.mem_singleton] at hnew
          subst hnew
          exact ⟨s, List.mem_append_right _ (List.mem_singleton_self s), hb.1.1⟩

/-- Each answer is right after the answers before it. -/
theorem Run.answer (h : Run requests answers) {i : ℕ} {s : Set α} {a : Option α}
    (hs : requests[i]? = some s) (ha : answers[i]? = some a) :
    Answer (answers.take i).reduceOption s a := by
  induction h with
  | nil => cases ha
  | @snoc requests answers t b h hb ih =>
      have hlen := h.length_eq
      by_cases hi : i < answers.length
      · rw [List.getElem?_append_left (by omega)] at hs
        rw [List.getElem?_append_left hi] at ha
        rw [List.take_append_of_le_length (by omega)]
        exact ih hs ha
      · have hlast : i < (answers ++ [b]).length := (List.getElem?_eq_some_iff.mp ha).1
        rw [List.length_append, List.length_singleton] at hlast
        have hi' : i = answers.length := by omega
        subst hi'
        rw [hlen, List.getElem?_concat_length, Option.some.injEq] at hs
        rw [List.getElem?_concat_length, Option.some.injEq] at ha
        rw [List.take_left, ← hs, ← ha]
        exact hb

end LeastFirst
