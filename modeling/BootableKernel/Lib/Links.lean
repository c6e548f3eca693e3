import Mathlib.Data.List.Basic
import Mathlib.Data.List.Nodup

/-!
# Doubly linked lists, by their link fields

A doubly linked list is seen through two functions on addresses: `nx` reads the link to
the next node and `pv` the one to the node before. `Linked nx pv p as q` says that the
nodes `as` are linked both ways, with `p` before the first and `q` after the last. What
else a node holds, and how the fields are stored, plays no part, so that the rules for
inserting and removing a node only ask which links changed.
-/

namespace Links

variable {nx pv nx' pv' : ℕ → ℕ} {p q a : ℕ} {as l r : List ℕ}

/-- The first node, or what follows an empty list. -/
def head (q : ℕ) : List ℕ → ℕ
  | [] => q
  | a :: _ => a

/-- The last node, or what precedes an empty list. -/
def last (p : ℕ) : List ℕ → ℕ
  | [] => p
  | a :: as => last a as

@[simp] theorem head_nil (q : ℕ) : head q [] = q := rfl
@[simp] theorem head_cons (q a : ℕ) (as : List ℕ) : head q (a :: as) = a := rfl
@[simp] theorem last_nil (p : ℕ) : last p [] = p := rfl
@[simp] theorem last_cons (p a : ℕ) (as : List ℕ) : last p (a :: as) = last a as := rfl

@[simp] theorem head_append (q : ℕ) (l r : List ℕ) :
    head q (l ++ r) = head (head q r) l := by
  cases l <;> rfl

@[simp] theorem last_append (p : ℕ) (l r : List ℕ) :
    last p (l ++ r) = last (last p l) r := by
  induction l generalizing p with
  | nil => rfl
  | cons a l ih => exact ih a

theorem head_eq_of_ne (h : as ≠ []) (p q : ℕ) : head p as = head q as := by
  cases as with
  | nil => exact absurd rfl h
  | cons a as => rfl

theorem last_mem (p : ℕ) (h : as ≠ []) : last p as ∈ as := by
  induction as generalizing p with
  | nil => exact absurd rfl h
  | cons a as ih =>
      cases as with
      | nil => exact List.mem_cons_self
      | cons b as => exact List.mem_cons_of_mem a (ih a (List.cons_ne_nil b as))

theorem head_mem (q : ℕ) (h : as ≠ []) : head q as ∈ as := by
  cases as with
  | nil => exact absurd rfl h
  | cons a as => exact List.mem_cons_self

/-- The nodes `as` are linked, between `p` and `q`. -/
def Linked (nx pv : ℕ → ℕ) : ℕ → List ℕ → ℕ → Prop
  | _, [], _ => True
  | p, a :: as, q => pv a = p ∧ nx a = head q as ∧ Linked nx pv a as q

theorem linked_cons :
    Linked nx pv p (a :: as) q ↔ pv a = p ∧ nx a = head q as ∧ Linked nx pv a as q := Iff.rfl

/-- A concatenation is linked if both parts are, across the seam. -/
theorem linked_append :
    Linked nx pv p (l ++ r) q ↔
      Linked nx pv p l (head q r) ∧ Linked nx pv (last p l) r q := by
  induction l generalizing p with
  | nil => simp [Linked]
  | cons a l ih =>
      rw [List.cons_append, linked_cons, linked_cons, ih, head_append, last_cons]
      tauto

/-- Links that agree on the nodes. -/
theorem Linked.congr (h : Linked nx pv p as q) (hnx : ∀ x ∈ as, nx' x = nx x)
    (hpv : ∀ x ∈ as, pv' x = pv x) : Linked nx' pv' p as q := by
  induction as generalizing p with
  | nil => trivial
  | cons a as ih =>
      obtain ⟨h₁, h₂, h₃⟩ := h
      refine ⟨?_, ?_, ?_⟩
      · rw [hpv a List.mem_cons_self, h₁]
      · rw [hnx a List.mem_cons_self, h₂]
      · exact ih h₃ (fun x hx => hnx x (List.mem_cons_of_mem a hx))
          (fun x hx => hpv x (List.mem_cons_of_mem a hx))

/-- The links of a node in the middle. -/
theorem Linked.mid (h : Linked nx pv p (l ++ a :: r) q) :
    pv a = last p l ∧ nx a = head q r := by
  obtain ⟨-, h₁, h₂, -⟩ := linked_append.mp h
  exact ⟨h₁, h₂⟩

/-- Another node comes after the list: its last link changes. -/
theorem Linked.setLast {q' : ℕ} (h : Linked nx pv p as q) (hd : as.Nodup)
    (hlast : as ≠ [] → nx' (last p as) = q') (hnx : ∀ x ∈ as, x ≠ last p as → nx' x = nx x)
    (hpv : ∀ x ∈ as, pv' x = pv x) : Linked nx' pv' p as q' := by
  induction as generalizing p with
  | nil => trivial
  | cons a as ih =>
      obtain ⟨h₁, h₂, h₃⟩ := h
      rw [List.nodup_cons] at hd
      refine ⟨(hpv a List.mem_cons_self).trans h₁, ?_, ?_⟩
      · cases as with
        | nil => exact hlast (List.cons_ne_nil a [])
        | cons b as =>
            have hne : a ≠ last a (b :: as) := by
              intro hc
              apply hd.1
              rw [hc]
              exact last_mem a (List.cons_ne_nil b as)
            exact (hnx a List.mem_cons_self hne).trans h₂
      · exact ih h₃ hd.2 (fun _ => hlast (List.cons_ne_nil a as))
          (fun x hx => hnx x (List.mem_cons_of_mem a hx))
          (fun x hx => hpv x (List.mem_cons_of_mem a hx))

/-- Another node comes before the list: its first link back changes. -/
theorem Linked.setFirst {p' : ℕ} (h : Linked nx pv p as q) (hd : as.Nodup)
    (hfirst : as ≠ [] → pv' (head q as) = p') (hnx : ∀ x ∈ as, nx' x = nx x)
    (hpv : ∀ x ∈ as, x ≠ head q as → pv' x = pv x) : Linked nx' pv' p' as q := by
  cases as with
  | nil => trivial
  | cons a as =>
      obtain ⟨-, h₂, h₃⟩ := h
      rw [List.nodup_cons] at hd
      refine ⟨hfirst (List.cons_ne_nil a as), (hnx a List.mem_cons_self).trans h₂, ?_⟩
      refine h₃.congr (fun x hx => hnx x (List.mem_cons_of_mem a hx)) fun x hx => ?_
      apply hpv x (List.mem_cons_of_mem a hx)
      rintro rfl
      exact hd.1 hx

/-- What an edit between `l` and `r` leaves of the links: only the last link of `l` and the
first link back of `r` may change. -/
structure Kept (nx pv nx' pv' : ℕ → ℕ) (p : ℕ) (l r : List ℕ) (q : ℕ) : Prop where
  next_left : ∀ x ∈ l, x ≠ last p l → nx' x = nx x
  next_right : ∀ x ∈ r, nx' x = nx x
  prev_left : ∀ x ∈ l, pv' x = pv x
  prev_right : ∀ x ∈ r, x ≠ head q r → pv' x = pv x

/-- **Inserting a node** between `l` and `r`. -/
theorem Linked.insert (h : Linked nx pv p (l ++ r) q) (hd : (l ++ r).Nodup)
    (hk : Kept nx pv nx' pv' p l r q) (hprev : pv' a = last p l) (hnext : nx' a = head q r)
    (hl : l ≠ [] → nx' (last p l) = a) (hr : r ≠ [] → pv' (head q r) = a) :
    Linked nx' pv' p (l ++ a :: r) q := by
  obtain ⟨h₁, h₂⟩ := linked_append.mp h
  rw [linked_append]
  exact ⟨h₁.setLast hd.of_append_left hl hk.next_left hk.prev_left, hprev, hnext,
    h₂.setFirst hd.of_append_right hr hk.next_right hk.prev_right⟩

/-- **Removing a node** from between `l` and `r`. -/
theorem Linked.erase (h : Linked nx pv p (l ++ a :: r) q) (hd : (l ++ a :: r).Nodup)
    (hk : Kept nx pv nx' pv' p l r q) (hl : l ≠ [] → nx' (last p l) = head q r)
    (hr : r ≠ [] → pv' (head q r) = last p l) : Linked nx' pv' p (l ++ r) q := by
  obtain ⟨h₁, -, -, h₂⟩ := linked_append.mp h
  rw [linked_append]
  exact ⟨h₁.setLast hd.of_append_left hl hk.next_left hk.prev_left,
    h₂.setFirst (List.nodup_cons.mp hd.of_append_right).2 hr hk.next_right hk.prev_right⟩

end Links
