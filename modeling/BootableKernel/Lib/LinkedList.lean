import Mathlib.Algebra.GroupWithZero.Nat
import Mathlib.Data.List.AList
import Mathlib.Data.List.Induction

/-!
# Doubly linked lists in a heap of nodes

A heap maps addresses to nodes; a node carries a payload and the addresses of its
two neighbours. Address `0` is the null pointer. Pointer programs run in
`Except Fault`: reading or writing through the null pointer or through an address
that is not allocated is a fault, and so is a pointer walk that never ends.

`Seg H p xs q` says that the nodes `xs`, listed with their addresses, are linked
both ways in `H`, with `p` before the first and `q` after the last. A whole list is
a segment between two null pointers; `Chain` adds that no node occurs twice and
that a head pointer designates the first node.

The walks take their bound from the heap: a walk that visits more nodes than are
allocated has met one of them twice, so it never ends.

## Main definitions

* `Seg`, `Chain` — the linked structure a heap holds.
* `setNext`, `setPrev`, `modify` — guarded link updates and payload updates.
* `find`, `advance`, `rewind`, `total` — the four walks.
-/

namespace LinkedList

variable {α : Type}

/-- A node: a payload and the two links. -/
structure Node (α : Type) where
  val : α
  prev : ℕ
  next : ℕ
  deriving DecidableEq, Repr

/-- The allocated nodes, by address. -/
abbrev Heap (α : Type) := AList (fun _ : ℕ => Node α)

/-- What can go wrong in a pointer program. -/
inductive Fault
  /-- An access through the null pointer. -/
  | null
  /-- An access through an address that is not allocated. -/
  | dead
  /-- A walk that revisits a node. -/
  | diverges
  deriving DecidableEq, Repr

/-! ## Accesses -/

/-- Read the node at `p`. -/
def load (H : Heap α) (p : ℕ) : Except Fault (Node α) :=
  if p = 0 then .error .null
  else match H.lookup p with
    | none => .error .dead
    | some n => .ok n

/-- Write the fields of an allocated node. -/
def modify (H : Heap α) (p : ℕ) (f : Node α → Node α) : Except Fault (Heap α) := do
  let n ← load H p
  .ok (H.insert p (f n))

/-- Write a whole node into memory that was just allocated at `p`. -/
def create (H : Heap α) (p : ℕ) (n : Node α) : Except Fault (Heap α) :=
  if p = 0 then .error .null else .ok (H.insert p n)

/-- `if (p) p->next = q`. -/
def setNext (H : Heap α) (p q : ℕ) : Except Fault (Heap α) :=
  if p = 0 then .ok H else modify H p fun n => { n with next := q }

/-- `if (p) p->prev = q`. -/
def setPrev (H : Heap α) (p q : ℕ) : Except Fault (Heap α) :=
  if p = 0 then .ok H else modify H p fun n => { n with prev := q }

@[simp] theorem load_null (H : Heap α) : load H 0 = .error .null := rfl

theorem load_eq_ok {H : Heap α} {p : ℕ} {n : Node α} (hp : p ≠ 0)
    (hn : H.lookup p = some n) : load H p = .ok n := by
  simp [load, hp, hn]

theorem modify_eq_ok {H : Heap α} {p : ℕ} {n : Node α} {f : Node α → Node α} (hp : p ≠ 0)
    (hn : H.lookup p = some n) : modify H p f = .ok (H.insert p (f n)) := by
  simp only [modify, load_eq_ok hp hn]
  rfl

theorem create_eq_ok {H : Heap α} {p : ℕ} (hp : p ≠ 0) (n : Node α) :
    create H p n = .ok (H.insert p n) := by
  simp [create, hp]

/-- Writing fields allocates and releases nothing. -/
theorem mem_of_modify {H H' : Heap α} {p : ℕ} {f : Node α → Node α} (h : modify H p f = .ok H')
    {a : ℕ} : a ∈ H' ↔ a ∈ H := by
  simp only [modify, load] at h
  split at h
  · exact absurd h (by simp [bind, Except.bind])
  · split at h
    · exact absurd h (by simp [bind, Except.bind])
    · rename_i n hn
      simp only [bind, Except.bind, Except.ok.injEq] at h
      subst h
      rw [AList.mem_insert]
      constructor
      · rintro (rfl | ha)
        · exact AList.lookup_isSome.mp (by rw [hn]; rfl)
        · exact ha
      · exact .inr

theorem mem_of_setNext {H H' : Heap α} {p q : ℕ} (h : setNext H p q = .ok H') {a : ℕ} :
    a ∈ H' ↔ a ∈ H := by
  rw [setNext] at h
  split at h
  · rw [Except.ok.injEq] at h
    rw [h]
  · exact mem_of_modify h

theorem mem_of_setPrev {H H' : Heap α} {p q : ℕ} (h : setPrev H p q = .ok H') {a : ℕ} :
    a ∈ H' ↔ a ∈ H := by
  rw [setPrev] at h
  split at h
  · rw [Except.ok.injEq] at h
    rw [h]
  · exact mem_of_modify h

theorem modify_dead {H : Heap α} {p : ℕ} {f : Node α → Node α} (hp : p ≠ 0) (hd : p ∉ H) :
    modify H p f = .error .dead := by
  simp [modify, load, hp, AList.lookup_eq_none.mpr hd, bind, Except.bind]

/-! ## Segments -/

/-- The address of the first node of a segment that is followed by `q`. -/
def headAddr (q : ℕ) : List (ℕ × α) → ℕ
  | [] => q
  | x :: _ => x.1

/-- The address of the last node of a segment that is preceded by `p`. -/
def lastAddr (p : ℕ) : List (ℕ × α) → ℕ
  | [] => p
  | x :: xs => lastAddr x.1 xs

@[simp] theorem headAddr_nil (q : ℕ) : headAddr q ([] : List (ℕ × α)) = q := rfl
@[simp] theorem headAddr_cons (q : ℕ) (x : ℕ × α) (xs : List (ℕ × α)) :
    headAddr q (x :: xs) = x.1 := rfl
@[simp] theorem lastAddr_nil (p : ℕ) : lastAddr p ([] : List (ℕ × α)) = p := rfl
@[simp] theorem lastAddr_cons (p : ℕ) (x : ℕ × α) (xs : List (ℕ × α)) :
    lastAddr p (x :: xs) = lastAddr x.1 xs := rfl

@[simp] theorem headAddr_append (q : ℕ) (xs ys : List (ℕ × α)) :
    headAddr q (xs ++ ys) = headAddr (headAddr q ys) xs := by
  cases xs <;> rfl

@[simp] theorem lastAddr_append (p : ℕ) (xs ys : List (ℕ × α)) :
    lastAddr p (xs ++ ys) = lastAddr (lastAddr p xs) ys := by
  induction xs generalizing p with
  | nil => rfl
  | cons x xs ih => simp [ih]

/-- The nodes `xs` are linked both ways in `H`, after `p` and before `q`. -/
def Seg (H : Heap α) : ℕ → List (ℕ × α) → ℕ → Prop
  | _, [], _ => True
  | p, x :: xs, q => x.1 ≠ 0 ∧ H.lookup x.1 = some ⟨x.2, p, headAddr q xs⟩ ∧ Seg H x.1 xs q

@[simp] theorem seg_nil (H : Heap α) (p q : ℕ) : Seg H p [] q := trivial

@[simp] theorem seg_cons {H : Heap α} {p q : ℕ} {x : ℕ × α} {xs : List (ℕ × α)} :
    Seg H p (x :: xs) q ↔
      x.1 ≠ 0 ∧ H.lookup x.1 = some ⟨x.2, p, headAddr q xs⟩ ∧ Seg H x.1 xs q := Iff.rfl

/-- A segment splits at any point into two segments that name each other's ends. -/
theorem seg_append {H : Heap α} {p q : ℕ} {xs ys : List (ℕ × α)} :
    Seg H p (xs ++ ys) q ↔ Seg H p xs (headAddr q ys) ∧ Seg H (lastAddr p xs) ys q := by
  induction xs generalizing p with
  | nil => simp
  | cons x xs ih => simp [ih, and_assoc]

/-- A segment depends only on the nodes it lists. -/
theorem Seg.congr {H H' : Heap α} {p q : ℕ} {xs : List (ℕ × α)} (h : Seg H p xs q)
    (hag : ∀ a ∈ xs.map Prod.fst, H'.lookup a = H.lookup a) : Seg H' p xs q := by
  induction xs generalizing p with
  | nil => trivial
  | cons x xs ih =>
      obtain ⟨hx, hl, hs⟩ := h
      refine ⟨hx, ?_, ih hs fun a ha => hag a (List.mem_cons_of_mem _ ha)⟩
      rw [hag x.1 (List.mem_cons_self ..), hl]

theorem Seg.ne_zero {H : Heap α} {p q : ℕ} {xs : List (ℕ × α)} (h : Seg H p xs q) :
    ∀ a ∈ xs.map Prod.fst, a ≠ 0 := by
  induction xs generalizing p with
  | nil => simp
  | cons x xs ih =>
      intro a ha
      rcases List.mem_cons.mp ha with rfl | ha
      · exact h.1
      · exact ih h.2.2 a ha

theorem Seg.mem_heap {H : Heap α} {p q : ℕ} {xs : List (ℕ × α)} (h : Seg H p xs q) :
    ∀ a ∈ xs.map Prod.fst, a ∈ H := by
  induction xs generalizing p with
  | nil => simp
  | cons x xs ih =>
      intro a ha
      rcases List.mem_cons.mp ha with rfl | ha
      · exact AList.lookup_isSome.mp (by rw [h.2.1]; rfl)
      · exact ih h.2.2 a ha

/-- No list is longer than the heap that holds it: the bound of every walk. -/
theorem Seg.length_le {H : Heap α} {p q : ℕ} {xs : List (ℕ × α)} (h : Seg H p xs q)
    (hn : (xs.map Prod.fst).Nodup) : xs.length ≤ H.keys.length := by
  have hsub : xs.map Prod.fst ⊆ H.keys := fun a ha => AList.mem_keys.mp (h.mem_heap a ha)
  simpa using (List.subperm_of_subset hn hsub).length_le

/-- Redirecting the node before a segment: the list before it now ends at `q'`. -/
theorem setNext_spec {H : Heap α} {xs : List (ℕ × α)} {q : ℕ} (h : Seg H 0 xs q)
    (hn : (xs.map Prod.fst).Nodup) (q' : ℕ) :
    ∃ H', setNext H (lastAddr 0 xs) q' = .ok H' ∧ Seg H' 0 xs q' ∧
      ∀ a, a ∉ xs.map Prod.fst → H'.lookup a = H.lookup a := by
  rcases List.eq_nil_or_concat xs with rfl | ⟨ys, x, rfl⟩
  · exact ⟨H, rfl, trivial, fun _ _ => rfl⟩
  · rw [List.concat_eq_append] at h hn ⊢
    rw [seg_append] at h
    obtain ⟨hys, hx0, hxl, -⟩ := h
    simp only [List.map_append, List.nodup_append, List.map_cons, List.map_nil] at hn
    have hxys : x.1 ∉ ys.map Prod.fst := fun hm => hn.2.2 x.1 hm x.1 (by simp) rfl
    refine ⟨H.insert x.1 ⟨x.2, lastAddr 0 ys, q'⟩, ?_, ?_, ?_⟩
    · simp only [lastAddr_append, lastAddr_cons, lastAddr_nil]
      rw [setNext, if_neg hx0, modify_eq_ok hx0 hxl]
    · rw [seg_append]
      refine ⟨hys.congr fun a ha => ?_, hx0, AList.lookup_insert _, trivial⟩
      exact AList.lookup_insert_ne fun hax => hxys (hax ▸ ha)
    · intro a ha
      refine AList.lookup_insert_ne fun hax => ha ?_
      simp [hax]

/-- Redirecting the node after a segment: the list after it now starts from `p'`. -/
theorem setPrev_spec {H : Heap α} {xs : List (ℕ × α)} {p : ℕ} (h : Seg H p xs 0)
    (hn : (xs.map Prod.fst).Nodup) (p' : ℕ) :
    ∃ H', setPrev H (headAddr 0 xs) p' = .ok H' ∧ Seg H' p' xs 0 ∧
      ∀ a, a ∉ xs.map Prod.fst → H'.lookup a = H.lookup a := by
  rcases xs with _ | ⟨x, ys⟩
  · exact ⟨H, rfl, trivial, fun _ _ => rfl⟩
  · obtain ⟨hx0, hxl, hys⟩ := h
    simp only [List.map_cons, List.nodup_cons] at hn
    refine ⟨H.insert x.1 ⟨x.2, p', headAddr 0 ys⟩, ?_, ?_, ?_⟩
    · rw [headAddr_cons, setPrev, if_neg hx0, modify_eq_ok hx0 hxl]
    · refine ⟨hx0, AList.lookup_insert _, hys.congr fun a ha => ?_⟩
      exact AList.lookup_insert_ne fun hax => hn.1 (hax ▸ ha)
    · intro a ha
      refine AList.lookup_insert_ne fun hax => ha ?_
      simp [hax]

/-! ## Whole lists -/

/-- `head` designates the list `xs`, linked both ways between two null pointers. -/
structure Chain (H : Heap α) (head : ℕ) (xs : List (ℕ × α)) : Prop where
  seg : Seg H 0 xs 0
  nodup : (xs.map Prod.fst).Nodup
  head_eq : head = headAddr 0 xs

theorem Chain.head_eq_zero_iff {H : Heap α} {head : ℕ} {xs : List (ℕ × α)}
    (h : Chain H head xs) : head = 0 ↔ xs = [] := by
  rcases xs with _ | ⟨x, xs⟩
  · simpa using h.head_eq
  · rw [h.head_eq]
    simpa using h.seg.1

/-- A heap holds one list from a given address on. -/
theorem Seg.unique {H : Heap α} {p p' : ℕ} {xs ys : List (ℕ × α)} (h : Seg H p xs 0)
    (h' : Seg H p' ys 0) (hhead : headAddr 0 xs = headAddr 0 ys) : xs = ys := by
  induction xs generalizing p p' ys with
  | nil =>
      cases ys with
      | nil => rfl
      | cons y ys => exact absurd hhead.symm h'.1
  | cons x xs ih =>
      cases ys with
      | nil => exact absurd hhead h.1
      | cons y ys =>
          obtain ⟨-, hl, hs⟩ := h
          obtain ⟨-, hl', hs'⟩ := h'
          simp only [headAddr_cons] at hhead
          rw [hhead, hl', Option.some.injEq, Node.mk.injEq] at hl
          rw [ih hs hs' hl.2.2.symm, Prod.ext hhead hl.1.symm]

theorem Chain.unique {H : Heap α} {head : ℕ} {xs ys : List (ℕ × α)} (h : Chain H head xs)
    (h' : Chain H head ys) : xs = ys := h.seg.unique h'.seg (h.head_eq.symm.trans h'.head_eq)

/-- The record a list member holds: its payload and its two neighbours. -/
theorem Chain.lookup_mid {H : Heap α} {head : ℕ} {l r : List (ℕ × α)} {x : ℕ × α}
    (h : Chain H head (l ++ x :: r)) :
    x.1 ≠ 0 ∧ H.lookup x.1 = some ⟨x.2, lastAddr 0 l, headAddr 0 r⟩ := by
  have hs := (seg_append.mp h.seg).2
  exact ⟨hs.1, hs.2.1⟩

/-- Overwriting a member's payload. -/
theorem Chain.modify_val {H : Heap α} {head : ℕ} {l r : List (ℕ × α)} {x : ℕ × α}
    (h : Chain H head (l ++ x :: r)) (f : Node α → Node α) (v : α)
    (hf : f ⟨x.2, lastAddr 0 l, headAddr 0 r⟩ = ⟨v, lastAddr 0 l, headAddr 0 r⟩) :
    ∃ H', modify H x.1 f = .ok H' ∧ Chain H' head (l ++ (x.1, v) :: r) ∧
      H'.lookup x.1 = some ⟨v, lastAddr 0 l, headAddr 0 r⟩ := by
  obtain ⟨hx0, hxl⟩ := h.lookup_mid
  obtain ⟨hl, -, -, hr⟩ := seg_append.mp h.seg
  have hn := h.nodup
  simp only [List.map_append, List.map_cons, List.nodup_append, List.nodup_cons] at hn
  obtain ⟨-, ⟨hxr, -⟩, hlr⟩ := hn
  refine ⟨H.insert x.1 ⟨v, lastAddr 0 l, headAddr 0 r⟩, ?_, ⟨?_, ?_, ?_⟩, AList.lookup_insert _⟩
  · rw [modify_eq_ok hx0 hxl, hf]
  · rw [seg_append]
    refine ⟨hl.congr fun a ha => ?_, hx0, AList.lookup_insert _, hr.congr fun a ha => ?_⟩
    · exact AList.lookup_insert_ne fun hax => hlr a ha x.1 (List.mem_cons_self ..) hax
    · exact AList.lookup_insert_ne fun hax => hxr (hax ▸ ha)
  · simpa using h.nodup
  · simpa using h.head_eq

/-- Closing the gap around a member and releasing it. -/
theorem Chain.unlink {H : Heap α} {head : ℕ} {l r : List (ℕ × α)} {x : ℕ × α}
    (h : Chain H head (l ++ x :: r)) :
    ∃ H₁ H₂, setNext H (lastAddr 0 l) (headAddr 0 r) = .ok H₁ ∧
      setPrev H₁ (headAddr 0 r) (lastAddr 0 l) = .ok H₂ ∧
      Chain (H₂.erase x.1) (headAddr 0 (l ++ r)) (l ++ r) := by
  obtain ⟨hl, -, -, hr⟩ := seg_append.mp h.seg
  have hn := h.nodup
  simp only [List.map_append, List.map_cons, List.nodup_append, List.nodup_cons] at hn
  obtain ⟨hnl, ⟨hxr, hnr⟩, hlr⟩ := hn
  have hxl : x.1 ∉ l.map Prod.fst := fun hm => hlr x.1 hm x.1 (List.mem_cons_self ..) rfl
  have hdis : ∀ a ∈ r.map Prod.fst, a ∉ l.map Prod.fst :=
    fun a ha hl => hlr a hl a (List.mem_cons_of_mem _ ha) rfl
  obtain ⟨H₁, e₁, s₁, f₁⟩ := setNext_spec hl hnl (headAddr 0 r)
  have hr₁ : Seg H₁ x.1 r 0 := hr.congr fun a ha => f₁ a (hdis a ha)
  obtain ⟨H₂, e₂, s₂, f₂⟩ := setPrev_spec hr₁ hnr (lastAddr 0 l)
  refine ⟨H₁, H₂, e₁, e₂, ⟨?_, ?_, rfl⟩⟩
  · rw [seg_append]
    refine ⟨s₁.congr fun a ha => ?_, s₂.congr fun a ha => ?_⟩
    · have hax : a ≠ x.1 := fun hax => hxl (hax ▸ ha)
      rw [AList.lookup_erase_ne hax]
      exact f₂ a fun har => hdis a har ha
    · exact AList.lookup_erase_ne fun hax => hxr (hax ▸ ha)
  · simp only [List.map_append, List.nodup_append]
    exact ⟨hnl, hnr, fun a ha b hb => hlr a ha b (List.mem_cons_of_mem _ hb)⟩

/-- Linking a fresh node in. -/
theorem Chain.link {H : Heap α} {head : ℕ} {l r : List (ℕ × α)}
    (h : Chain H head (l ++ r)) {x : ℕ × α} (hx0 : x.1 ≠ 0)
    (hfresh : x.1 ∉ (l ++ r).map Prod.fst) :
    ∃ H₁ H₂, setNext (H.insert x.1 ⟨x.2, lastAddr 0 l, headAddr 0 r⟩) (lastAddr 0 l) x.1 = .ok H₁ ∧
      setPrev H₁ (headAddr 0 r) x.1 = .ok H₂ ∧
      Chain H₂ (headAddr 0 (l ++ x :: r)) (l ++ x :: r) := by
  obtain ⟨hl, hr⟩ := seg_append.mp h.seg
  have hn := h.nodup
  simp only [List.map_append, List.nodup_append] at hn
  obtain ⟨hnl, hnr, hlr⟩ := hn
  simp only [List.map_append, List.mem_append, not_or] at hfresh
  obtain ⟨hxl, hxr⟩ := hfresh
  set H₀ := H.insert x.1 ⟨x.2, lastAddr 0 l, headAddr 0 r⟩ with hH₀
  have f₀ : ∀ a, a ≠ x.1 → H₀.lookup a = H.lookup a := fun a ha => AList.lookup_insert_ne ha
  have hl₀ : Seg H₀ 0 l (headAddr 0 r) := hl.congr fun a ha => f₀ a fun e => hxl (e ▸ ha)
  obtain ⟨H₁, e₁, s₁, f₁⟩ := setNext_spec hl₀ hnl x.1
  have hr₁ : Seg H₁ (lastAddr 0 l) r 0 := hr.congr fun a ha => by
    rw [f₁ a fun hal => hlr a hal a ha rfl, f₀ a fun e => hxr (e ▸ ha)]
  obtain ⟨H₂, e₂, s₂, f₂⟩ := setPrev_spec hr₁ hnr x.1
  refine ⟨H₁, H₂, e₁, e₂, ⟨?_, ?_, rfl⟩⟩
  · rw [seg_append]
    refine ⟨s₁.congr fun a ha => f₂ a fun har => hlr a ha a har rfl, hx0, ?_, s₂⟩
    rw [f₂ x.1 hxr, f₁ x.1 hxl, hH₀, AList.lookup_insert]
  · simp only [List.map_append, List.map_cons, List.nodup_append, List.nodup_cons]
    refine ⟨hnl, ⟨hxr, hnr⟩, ?_⟩
    intro a ha b hb
    rcases List.mem_cons.mp hb with rfl | hb
    · exact fun e => hxl (e ▸ ha)
    · exact hlr a ha b hb

/-! ## Walks -/

/-- Bounded form of `while (p && !test(p)) p = p->next`. -/
def findLoop (H : Heap α) (test : α → Bool) : ℕ → ℕ → Except Fault ℕ
  | 0, p => if p = 0 then .ok 0 else .error .diverges
  | fuel + 1, p =>
      if p = 0 then .ok 0
      else do
        let n ← load H p
        if test n.val then .ok p else findLoop H test fuel n.next

/-- The first node from `p` on whose payload passes `test`, or null. -/
def find (H : Heap α) (test : α → Bool) (p : ℕ) : Except Fault ℕ :=
  findLoop H test H.keys.length p

/-- Bounded form of `while (p->next && test(p->next)) p = p->next`. -/
def advanceLoop (H : Heap α) (test : α → Bool) : ℕ → ℕ → Except Fault ℕ
  | 0, _ => .error .diverges
  | fuel + 1, p => do
      let n ← load H p
      if n.next = 0 then .ok p
      else do
        let m ← load H n.next
        if test m.val then advanceLoop H test fuel n.next else .ok p

/-- Step forward from `p` for as long as the next payload passes `test`. -/
def advance (H : Heap α) (test : α → Bool) (p : ℕ) : Except Fault ℕ :=
  advanceLoop H test H.keys.length p

/-- Bounded form of `while (p->prev) p = p->prev`. -/
def rewindLoop (H : Heap α) : ℕ → ℕ → Except Fault ℕ
  | 0, _ => .error .diverges
  | fuel + 1, p => do
      let n ← load H p
      if n.prev = 0 then .ok p else rewindLoop H fuel n.prev

/-- Step back from `p` to the first node. -/
def rewind (H : Heap α) (p : ℕ) : Except Fault ℕ := rewindLoop H H.keys.length p

/-- Bounded form of `while (p) { acc += f(p); p = p->next; }`. -/
def totalLoop (H : Heap α) (f : α → ℕ) : ℕ → ℕ → ℕ → Except Fault ℕ
  | 0, p, acc => if p = 0 then .ok acc else .error .diverges
  | fuel + 1, p, acc =>
      if p = 0 then .ok acc
      else do
        let n ← load H p
        totalLoop H f fuel n.next (acc + f n.val)

/-- The sum of `f` over the payloads from `p` on. -/
def total (H : Heap α) (f : α → ℕ) (p : ℕ) : Except Fault ℕ := totalLoop H f H.keys.length p 0

theorem findLoop_eq {H : Heap α} (test : α → Bool) {xs : List (ℕ × α)} :
    ∀ {n p}, Seg H p xs 0 → xs.length ≤ n →
      findLoop H test n (headAddr 0 xs) =
        .ok (headAddr 0 (xs.dropWhile fun x => !test x.2)) := by
  induction xs with
  | nil => intro fuel p _ _; cases fuel <;> rfl
  | cons x xs ih =>
      intro fuel p h hf
      obtain ⟨hx0, hxl, hs⟩ := h
      obtain ⟨fuel, rfl⟩ : ∃ k, fuel = k + 1 := ⟨fuel - 1, by simp at hf; omega⟩
      simp only [findLoop, headAddr_cons, if_neg hx0, load_eq_ok hx0 hxl]
      cases ht : test x.2
      · have hrest := ih (n := fuel) hs (by simpa using hf)
        simpa [ht, bind, Except.bind] using hrest
      · simp [ht, bind, Except.bind]

/-- The search ends, at the first member that passes the test or at null. -/
theorem Chain.find_eq {H : Heap α} {head : ℕ} {xs : List (ℕ × α)} (h : Chain H head xs)
    (test : α → Bool) :
    find H test head = .ok (headAddr 0 (xs.dropWhile fun x => !test x.2)) := by
  rw [h.head_eq]
  exact findLoop_eq test h.seg (h.seg.length_le h.nodup)

theorem advanceLoop_eq {H : Heap α} (test : α → Bool) {xs : List (ℕ × α)} :
    ∀ {n p x}, Seg H p (x :: xs) 0 → xs.length < n →
      advanceLoop H test n x.1 = .ok (lastAddr x.1 (xs.takeWhile fun y => test y.2)) := by
  induction xs with
  | nil =>
      intro fuel p x h hf
      obtain ⟨hx0, hxl, -⟩ := h
      obtain ⟨fuel, rfl⟩ : ∃ k, fuel = k + 1 := ⟨fuel - 1, by omega⟩
      simp [advanceLoop, load_eq_ok hx0 hxl, bind, Except.bind]
  | cons y ys ih =>
      intro fuel p x h hf
      obtain ⟨hx0, hxl, hs⟩ := h
      obtain ⟨fuel, rfl⟩ : ∃ k, fuel = k + 1 := ⟨fuel - 1, by omega⟩
      have hy0 : y.1 ≠ 0 := hs.1
      have hyl := load_eq_ok hy0 hs.2.1
      simp only [advanceLoop, load_eq_ok hx0 hxl, bind, Except.bind, headAddr_cons, if_neg hy0, hyl]
      cases ht : test y.2
      · simp [ht]
      · have hrest := ih (n := fuel) hs (by simpa using hf)
        simpa [ht] using hrest

/-- Stepping forward from the first node ends at the last of the members that
follow it and pass the test. -/
theorem Chain.advance_eq {H : Heap α} {head : ℕ} {x : ℕ × α} {xs : List (ℕ × α)}
    (h : Chain H head (x :: xs)) (test : α → Bool) :
    advance H test head = .ok (lastAddr x.1 (xs.takeWhile fun y => test y.2)) := by
  rw [h.head_eq]
  exact advanceLoop_eq test h.seg (h.seg.length_le h.nodup)

theorem rewindLoop_eq {H : Heap α} {l : List (ℕ × α)} :
    ∀ {n r x}, Seg H 0 (l ++ x :: r) 0 → l.length < n →
      rewindLoop H n x.1 = .ok (headAddr 0 (l ++ x :: r)) := by
  induction l using List.reverseRecOn with
  | nil =>
      intro fuel r x h hf
      obtain ⟨hx0, hxl, -⟩ := h
      obtain ⟨fuel, rfl⟩ : ∃ k, fuel = k + 1 := ⟨fuel - 1, by omega⟩
      simp [rewindLoop, load_eq_ok hx0 hxl, bind, Except.bind]
  | append_singleton l y ih =>
      intro fuel r x h hf
      have hx := (seg_append.mp h).2
      obtain ⟨fuel, rfl⟩ : ∃ k, fuel = k + 1 := ⟨fuel - 1, by omega⟩
      rw [List.append_assoc] at h ⊢
      have hy0 : y.1 ≠ 0 := (seg_append.mp h).2.1
      have hrest := ih (n := fuel) h (by simp at hf; omega)
      simpa [rewindLoop, load_eq_ok hx.1 hx.2.1, bind, Except.bind, hy0] using hrest

/-- Stepping back from any member ends at the first node. -/
theorem Chain.rewind_eq {H : Heap α} {head : ℕ} {l r : List (ℕ × α)} {x : ℕ × α}
    (h : Chain H head (l ++ x :: r)) : rewind H x.1 = .ok (headAddr 0 (l ++ x :: r)) := by
  have hle := h.seg.length_le h.nodup
  exact rewindLoop_eq h.seg (by simp at hle; omega)

theorem totalLoop_eq {H : Heap α} (f : α → ℕ) {xs : List (ℕ × α)} :
    ∀ {n p a}, Seg H p xs 0 → xs.length ≤ n →
      totalLoop H f n (headAddr 0 xs) a = .ok (a + (xs.map fun x => f x.2).sum) := by
  induction xs with
  | nil => intro fuel p acc _ _; cases fuel <;> rfl
  | cons x xs ih =>
      intro fuel p acc h hf
      obtain ⟨hx0, hxl, hs⟩ := h
      obtain ⟨fuel, rfl⟩ : ∃ k, fuel = k + 1 := ⟨fuel - 1, by simp at hf; omega⟩
      have hrest := ih (n := fuel) (a := acc + f x.2) hs (by simpa using hf)
      simpa [totalLoop, hx0, load_eq_ok hx0 hxl, bind, Except.bind, Nat.add_assoc] using hrest

theorem Chain.total_eq {H : Heap α} {head : ℕ} {xs : List (ℕ × α)} (h : Chain H head xs)
    (f : α → ℕ) : total H f head = .ok (xs.map fun x => f x.2).sum := by
  rw [h.head_eq, total, totalLoop_eq f h.seg (h.seg.length_le h.nodup), Nat.zero_add]

end LinkedList
