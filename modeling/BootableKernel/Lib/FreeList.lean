import BootableKernel.Lib.Spans
import Mathlib.Data.List.TakeWhile

/-!
# First-fit allocation from a coalesced free list

The free space of an allocator as a list of spans. `take` cuts a request off the start
of the first span that has room for it; `put` returns a span, in order of starts, and
welds it to the neighbours it touches.

Both operations keep the covered points: `countP_take` and `countP_put` say that what
is taken and what is left, or what was there and what is put, cover every point as
often as before. They also keep the list `Coalesced`, which is more than sorted: the
spans are non-empty and there is a gap between any two of them.

## Main definitions

* `take`, `put` — allocation and release.
* `Coalesced` — the shape of a list that is never fragmented needlessly.
-/

namespace FreeList

variable {w : ℕ}

/-- What is left of a span when `n` points are cut off its start. -/
def rest (w : ℕ) (b : Span) (n : ℕ) : List Span :=
  if b.size = n then [] else [⟨b.start + n * w, b.size - n⟩]

/-- Cut `n` points off the first span with room for them: where they start, and the
list that remains. -/
def take (w n : ℕ) : List Span → Option (ℕ × List Span)
  | [] => none
  | b :: l =>
      if n ≤ b.size then some (b.start, rest w b n ++ l)
      else (take w n l).map fun r => (r.1, b :: r.2)

/-- Put `x` before a list, as one span with the first of them if they touch. -/
def pushFront (w : ℕ) (x : Span) : List Span → List Span
  | [] => [x]
  | c :: r => if x.stop w = c.start then ⟨x.start, x.size + c.size⟩ :: r else x :: c :: r

/-- Put `x` between `b` and the list after it. -/
def settle (w : ℕ) (x b : Span) (r : List Span) : List Span :=
  if b.stop w = x.start then pushFront w ⟨b.start, b.size + x.size⟩ r else b :: pushFront w x r

/-- Put `x` somewhere after `b`. -/
def insertAfter (w : ℕ) (x b : Span) : List Span → List Span
  | [] => settle w x b []
  | c :: l => if c.start < x.start then b :: insertAfter w x c l else settle w x b (c :: l)

/-- Return the span `x`. -/
def put (w : ℕ) (x : Span) : List Span → List Span
  | [] => [x]
  | b :: l => if x.start < b.start then pushFront w x (b :: l) else insertAfter w x b l

/-! ## Covered points -/

theorem take_eq_none {n : ℕ} {l : List Span} : take w n l = none ↔ ∀ b ∈ l, b.size < n := by
  induction l with
  | nil => simp [take]
  | cons b l ih =>
      by_cases h : n ≤ b.size
      · simp only [take, if_pos h, reduceCtorEq, false_iff]
        exact fun hall => absurd (hall b (List.mem_cons_self ..)) (by omega)
      · simp only [take, if_neg h, Option.map_eq_none_iff, ih, List.forall_mem_cons]
        exact ⟨fun hl => ⟨by omega, hl⟩, And.right⟩

/-- The request is served by the first span with room. -/
theorem take_append {n : ℕ} {l r : List Span} {b : Span} (hl : ∀ c ∈ l, c.size < n)
    (hb : n ≤ b.size) : take w n (l ++ b :: r) = some (b.start, l ++ rest w b n ++ r) := by
  induction l with
  | nil => simp [take, hb]
  | cons c l ih =>
      obtain ⟨hc, hl⟩ := List.forall_mem_cons.mp hl
      simp [take, ih hl, show ¬ n ≤ c.size by omega]

theorem exists_of_take {n s : ℕ} {l l' : List Span} (h : take w n l = some (s, l')) :
    ∃ l₁ b r, l = l₁ ++ b :: r ∧ (∀ c ∈ l₁, c.size < n) ∧ n ≤ b.size ∧ s = b.start ∧
      l' = l₁ ++ rest w b n ++ r := by
  induction l generalizing s l' with
  | nil => simp [take] at h
  | cons c l ih =>
      by_cases hc : n ≤ c.size
      · rw [take, if_pos hc, Option.some.injEq, Prod.mk.injEq] at h
        exact ⟨[], c, l, rfl, by simp, hc, h.1.symm, h.2.symm⟩
      · rw [take, if_neg hc, Option.map_eq_some_iff] at h
        obtain ⟨⟨t, k⟩, ht, heq⟩ := h
        rw [Prod.mk.injEq] at heq
        obtain ⟨l₁, b, r, hl, hsmall, hb, hs, hk⟩ := ih ht
        refine ⟨c :: l₁, b, r, by rw [hl]; rfl, ?_, hb, ?_, ?_⟩
        · exact List.forall_mem_cons.mpr ⟨by omega, hsmall⟩
        · rw [← heq.1]
          exact hs
        · rw [← heq.2]
          simp [show k = _ from hk]

/-- What is cut off and what is left cover what the span covered. -/
theorem countP_rest (hw : 0 < w) {n : ℕ} {b : Span} (hb : n ≤ b.size) (a : ℕ) :
    (⟨b.start, n⟩ :: rest w b n).countP (Span.covers w a) = [b].countP (Span.covers w a) := by
  rw [rest]
  by_cases h : b.size = n
  · subst h
    rw [if_pos rfl]
  · rw [if_neg h, ← Tiles.countP_split hw, Nat.add_sub_cancel' hb]

theorem countP_take (hw : 0 < w) {n s : ℕ} {l l' : List Span} (h : take w n l = some (s, l'))
    (a : ℕ) : (⟨s, n⟩ :: l').countP (Span.covers w a) = l.countP (Span.covers w a) := by
  obtain ⟨l₁, b, r, rfl, -, hb, rfl, rfl⟩ := exists_of_take h
  have hr := countP_rest hw hb a
  simp only [List.countP_cons, List.countP_append, List.countP_nil] at hr ⊢
  omega

theorem countP_pushFront (hw : 0 < w) (x : Span) (l : List Span) (a : ℕ) :
    (pushFront w x l).countP (Span.covers w a) = (x :: l).countP (Span.covers w a) := by
  cases l with
  | nil => rfl
  | cons c r =>
      rw [pushFront]
      split
      · rename_i h
        rw [Tiles.countP_split hw, show x.start + x.size * w = c.start from h]
      · rfl

theorem countP_settle (hw : 0 < w) (x b : Span) (r : List Span) (a : ℕ) :
    (settle w x b r).countP (Span.covers w a) = (x :: b :: r).countP (Span.covers w a) := by
  rw [settle, (List.Perm.swap b x r).countP_eq]
  split
  · rename_i h
    rw [countP_pushFront hw, Tiles.countP_split hw, show b.start + b.size * w = x.start from h]
  · rw [List.countP_cons, countP_pushFront hw, ← List.countP_cons]

theorem countP_insertAfter (hw : 0 < w) (x b : Span) (l : List Span) (a : ℕ) :
    (insertAfter w x b l).countP (Span.covers w a) = (x :: b :: l).countP (Span.covers w a) := by
  induction l generalizing b with
  | nil => exact countP_settle hw x b [] a
  | cons c l ih =>
      rw [insertAfter]
      split
      · rw [List.countP_cons, ih c, ← List.countP_cons, (List.Perm.swap x b (c :: l)).countP_eq]
      · exact countP_settle hw x b (c :: l) a

theorem countP_put (hw : 0 < w) (x : Span) (l : List Span) (a : ℕ) :
    (put w x l).countP (Span.covers w a) = (x :: l).countP (Span.covers w a) := by
  cases l with
  | nil => rfl
  | cons b l =>
      rw [put]
      split
      · exact countP_pushFront hw x (b :: l) a
      · exact countP_insertAfter hw x b l a

/-! ## Shape -/

/-- Non-empty spans in order, with a gap after each. -/
structure Coalesced (w : ℕ) (l : List Span) : Prop where
  nonempty : ∀ b ∈ l, 0 < b.size
  apart : l.Pairwise fun b c => b.stop w < c.start

theorem coalesced_nil : Coalesced w [] := ⟨by simp, List.Pairwise.nil⟩

theorem coalesced_cons {b : Span} {l : List Span} :
    Coalesced w (b :: l) ↔
      0 < b.size ∧ (∀ c ∈ l, b.stop w < c.start) ∧ Coalesced w l := by
  constructor
  · rintro ⟨hn, ha⟩
    rw [List.forall_mem_cons] at hn
    rw [List.pairwise_cons] at ha
    exact ⟨hn.1, ha.1, hn.2, ha.2⟩
  · rintro ⟨hb, hg, hn, ha⟩
    exact ⟨List.forall_mem_cons.mpr ⟨hb, hn⟩, List.pairwise_cons.mpr ⟨hg, ha⟩⟩

theorem coalesced_append {l r : List Span} :
    Coalesced w (l ++ r) ↔
      Coalesced w l ∧ Coalesced w r ∧ ∀ b ∈ l, ∀ c ∈ r, b.stop w < c.start := by
  constructor
  · rintro ⟨hn, ha⟩
    rw [List.pairwise_append] at ha
    exact ⟨⟨fun b hb => hn b (List.mem_append_left _ hb), ha.1⟩,
      ⟨fun b hb => hn b (List.mem_append_right _ hb), ha.2.1⟩, ha.2.2⟩
  · rintro ⟨hl, hr, hlr⟩
    refine ⟨fun b hb => ?_, List.pairwise_append.mpr ⟨hl.apart, hr.apart, hlr⟩⟩
    rcases List.mem_append.mp hb with hb | hb
    · exact hl.nonempty b hb
    · exact hr.nonempty b hb

/-- What is left of a span lies inside it and ends with it. -/
theorem mem_rest {n : ℕ} {b c : Span} (hb : n ≤ b.size) (hc : c ∈ rest w b n) :
    0 < c.size ∧ b.start ≤ c.start ∧ c.stop w = b.stop w := by
  rw [rest] at hc
  split at hc
  · simp at hc
  · rename_i h
    rw [List.mem_singleton] at hc
    subst hc
    simp only [Span.stop]
    refine ⟨by omega, by omega, ?_⟩
    have : n * w + (b.size - n) * w = b.size * w := by
      rw [← Nat.add_mul, Nat.add_sub_cancel' hb]
    omega

theorem Coalesced.take {n s : ℕ} {l l' : List Span} (h : Coalesced w l)
    (ht : take w n l = some (s, l')) : Coalesced w l' := by
  obtain ⟨l₁, b, r, rfl, -, hb, rfl, rfl⟩ := exists_of_take ht
  rw [coalesced_append, coalesced_cons] at h
  obtain ⟨h₁, ⟨hb0, hbr, hr⟩, hsep⟩ := h
  have hrest : Coalesced w (rest w b n) := by
    refine ⟨fun c hc => (mem_rest hb hc).1, ?_⟩
    rw [rest]
    split
    · exact List.Pairwise.nil
    · exact List.pairwise_singleton _ _
  rw [List.append_assoc, coalesced_append, coalesced_append]
  refine ⟨h₁, ⟨hrest, hr, ?_⟩, ?_⟩
  · intro c hc d hd
    rw [(mem_rest hb hc).2.2]
    exact hbr d hd
  · intro c hc d hd
    rcases List.mem_append.mp hd with hd | hd
    · have := hsep c hc b (List.mem_cons_self ..)
      have := (mem_rest hb hd).2.1
      omega
    · exact hsep c hc d (List.mem_cons_of_mem _ hd)

theorem start_lt_stop (hw : 0 < w) {b : Span} (hb : 0 < b.size) : b.start < b.stop w := by
  have := Nat.mul_pos hb hw
  simp only [Span.stop]
  omega

/-- No point is covered twice. -/
theorem Coalesced.countP_le_one (hw : 0 < w) {l : List Span} (h : Coalesced w l) (a : ℕ) :
    l.countP (Span.covers w a) ≤ 1 := by
  induction l with
  | nil => simp
  | cons b l ih =>
      obtain ⟨-, hbl, hl⟩ := coalesced_cons.mp h
      rw [List.countP_cons]
      cases hb : b.covers w a with
      | false => simpa using ih hl
      | true =>
          have hzero : l.countP (Span.covers w a) = 0 := by
            rw [List.countP_eq_zero]
            intro c hc hca
            have h₁ := (Span.covers_bounds hw hb).2
            have h₂ := (Span.covers_bounds hw hca).1
            have := hbl c hc
            omega
          simp [hzero]

theorem Coalesced.pushFront {x : Span} {r : List Span} (h : Coalesced w r)
    (hx : 0 < x.size) (hr : ∀ c ∈ r, x.stop w ≤ c.start) :
    Coalesced w (pushFront w x r) ∧ ∀ c ∈ FreeList.pushFront w x r, x.start ≤ c.start := by
  have hge : ∀ c ∈ r, x.start ≤ c.start := fun c hc => le_trans (Nat.le_add_right ..) (hr c hc)
  cases r with
  | nil =>
      rw [FreeList.pushFront]
      exact ⟨coalesced_cons.mpr ⟨hx, by simp, h⟩, by simp⟩
  | cons c r =>
      rw [coalesced_cons] at h
      obtain ⟨hc, hcr, hr'⟩ := h
      rw [FreeList.pushFront]
      split
      · rename_i hstop
        have heq : (⟨x.start, x.size + c.size⟩ : Span).stop w = c.stop w := by
          simp only [Span.stop, Nat.add_mul] at hstop ⊢
          omega
        refine ⟨coalesced_cons.mpr ⟨Nat.add_pos_left hx _, ?_, hr'⟩, ?_⟩
        · rw [heq]
          exact hcr
        · exact List.forall_mem_cons.mpr
            ⟨le_refl x.start, fun d hd => hge d (List.mem_cons_of_mem _ hd)⟩
      · rename_i hstop
        have hxc : x.stop w < c.start := lt_of_le_of_ne (hr c (List.mem_cons_self ..)) hstop
        refine ⟨coalesced_cons.mpr ⟨hx, ?_, coalesced_cons.mpr ⟨hc, hcr, hr'⟩⟩, ?_⟩
        · refine List.forall_mem_cons.mpr ⟨hxc, fun d hd => ?_⟩
          have := hcr d hd
          have : c.start ≤ c.stop w := Nat.le_add_right ..
          omega
        · exact List.forall_mem_cons.mpr ⟨le_refl x.start, hge⟩

theorem Coalesced.settle {x b : Span} {r : List Span} (h : Coalesced w (b :: r))
    (hx : 0 < x.size) (hbx : b.stop w ≤ x.start) (hxr : ∀ c ∈ r, x.stop w ≤ c.start) :
    Coalesced w (settle w x b r) ∧ ∀ c ∈ FreeList.settle w x b r, b.start ≤ c.start := by
  rw [coalesced_cons] at h
  obtain ⟨hb, hbr, hr⟩ := h
  have hbs : b.start ≤ b.stop w := Nat.le_add_right ..
  rw [FreeList.settle]
  split
  · rename_i hstop
    have heq : (⟨b.start, b.size + x.size⟩ : Span).stop w = x.stop w := by
      simp only [Span.stop, Nat.add_mul] at hstop ⊢
      omega
    exact hr.pushFront (Nat.add_pos_left hb _) (by rw [heq]; exact hxr)
  · rename_i hstop
    obtain ⟨hp, hge⟩ := hr.pushFront hx hxr
    refine ⟨coalesced_cons.mpr ⟨hb, fun c hc => ?_, hp⟩, ?_⟩
    · have := hge c hc
      omega
    · refine List.forall_mem_cons.mpr ⟨le_refl _, fun c hc => ?_⟩
      have := hge c hc
      omega

/-- Two spans do not overlap. -/
def Apart (w : ℕ) (x b : Span) : Prop := x.stop w ≤ b.start ∨ b.stop w ≤ x.start

theorem Coalesced.insertAfter (hw : 0 < w) {x b : Span} {l : List Span} (h : Coalesced w (b :: l))
    (hx : 0 < x.size) (hbx : b.stop w ≤ x.start) (hap : ∀ c ∈ l, Apart w x c) :
    Coalesced w (insertAfter w x b l) ∧ ∀ c ∈ FreeList.insertAfter w x b l, b.start ≤ c.start := by
  induction l generalizing b with
  | nil => exact h.settle hx hbx (by simp)
  | cons c l ih =>
      have hcons := coalesced_cons.mp h
      obtain ⟨hb, hbl, hl⟩ := hcons
      obtain ⟨hapc, hapl⟩ := List.forall_mem_cons.mp hap
      have hxs := start_lt_stop hw hx
      rw [FreeList.insertAfter]
      split
      · rename_i hlt
        have hcx : c.stop w ≤ x.start := by
          rcases hapc with h' | h'
          · omega
          · exact h'
        obtain ⟨hco, hge⟩ := ih hl hcx hapl
        have hbc := hbl c (List.mem_cons_self ..)
        have hbs : b.start ≤ b.stop w := Nat.le_add_right ..
        refine ⟨coalesced_cons.mpr ⟨hb, fun d hd => ?_, hco⟩, ?_⟩
        · have := hge d hd
          omega
        · refine List.forall_mem_cons.mpr ⟨le_refl _, fun d hd => ?_⟩
          have := hge d hd
          omega
      · rename_i hge
        have hcs := start_lt_stop hw (coalesced_cons.mp hl).1
        have hxc : x.stop w ≤ c.start := by
          rcases hapc with h' | h'
          · exact h'
          · omega
        refine h.settle hx hbx (List.forall_mem_cons.mpr ⟨hxc, fun d hd => ?_⟩)
        have := (coalesced_cons.mp hl).2.1 d hd
        omega

/-- Returning a span that overlaps none of the list keeps the list coalesced. -/
theorem Coalesced.put (hw : 0 < w) {x : Span} {l : List Span} (h : Coalesced w l)
    (hx : 0 < x.size) (hap : ∀ c ∈ l, Apart w x c) : Coalesced w (put w x l) := by
  have hxs := start_lt_stop hw hx
  cases l with
  | nil => exact coalesced_cons.mpr ⟨hx, by simp, h⟩
  | cons b l =>
      obtain ⟨hb, hbl, hl⟩ := coalesced_cons.mp h
      have hbs := start_lt_stop hw hb
      obtain ⟨hapb, hapl⟩ := List.forall_mem_cons.mp hap
      rw [FreeList.put]
      split
      · rename_i hlt
        have hxb : x.stop w ≤ b.start := by
          rcases hapb with h' | h'
          · exact h'
          · omega
        refine (h.pushFront hx (List.forall_mem_cons.mpr ⟨hxb, fun c hc => ?_⟩)).1
        have := hbl c hc
        omega
      · rename_i hge
        have hbx : b.stop w ≤ x.start := by
          rcases hapb with h' | h'
          · omega
          · exact h'
        exact (h.insertAfter hw hx hbx hapl).1

/-! ## Where a span is put

The items of a list may carry more than their span, which `f` reads off. -/

section Place
variable {α : Type} (f : α → Span)

/-- The items before and after the place of a span that starts at `s`. -/
def place (s : ℕ) : List α → List α × List α
  | [] => ([], [])
  | y :: ys =>
      if s < (f y).start then ([], y :: ys)
      else (y :: ys.takeWhile (fun z => decide ((f z).start < s)),
        ys.dropWhile (fun z => decide ((f z).start < s)))

theorem place_append (s : ℕ) (ys : List α) : (place f s ys).1 ++ (place f s ys).2 = ys := by
  cases ys with
  | nil => rfl
  | cons y ys =>
      rw [place]
      split
      · rfl
      · simp

/-- Put `x` between two lists. -/
def weld (w : ℕ) (x : Span) (l r : List Span) : List Span :=
  match l.getLast? with
  | none => pushFront w x r
  | some b => l.dropLast ++ settle w x b r

@[simp] theorem weld_nil (w : ℕ) (x : Span) (r : List Span) : weld w x [] r = pushFront w x r := rfl

@[simp] theorem weld_concat (w : ℕ) (x b : Span) (l r : List Span) :
    weld w x (l ++ [b]) r = l ++ settle w x b r := by
  simp [weld]

theorem weld_cons (w : ℕ) (x b c : Span) (l r : List Span) :
    weld w x (b :: c :: l) r = b :: weld w x (c :: l) r := by
  rcases List.eq_nil_or_concat (c :: l) with h | ⟨l', d, h⟩
  · simp at h
  · rw [h, List.concat_eq_append, weld_concat, ← List.cons_append, weld_concat]
    rfl

theorem insertAfter_eq_weld (w : ℕ) (x : Span) (y : α) (ys : List α) :
    insertAfter w x (f y) (ys.map f) =
      weld w x ((y :: ys.takeWhile (fun z => decide ((f z).start < x.start))).map f)
        ((ys.dropWhile (fun z => decide ((f z).start < x.start))).map f) := by
  induction ys generalizing y with
  | nil => exact (weld_concat w x (f y) [] []).symm
  | cons z zs ih =>
      by_cases hz : (f z).start < x.start
      · simp [insertAfter, hz, ih z, weld_cons]
      · simpa [insertAfter, hz] using (weld_concat w x (f y) [] (f z :: zs.map f)).symm

/-- Returning a span is welding it in at its place. -/
theorem put_eq_weld (w : ℕ) (x : Span) (ys : List α) :
    put w x (ys.map f) =
      weld w x ((place f x.start ys).1.map f) ((place f x.start ys).2.map f) := by
  cases ys with
  | nil => rfl
  | cons y ys =>
      simp only [place, List.map_cons, put]
      split
      · rfl
      · exact insertAfter_eq_weld f w x y ys

theorem start_le_of_mem_before {s : ℕ} {ys : List α} {b : α} (hb : b ∈ (place f s ys).1) :
    (f b).start ≤ s := by
  cases ys with
  | nil => simp [place] at hb
  | cons y ys =>
      rw [place] at hb
      split at hb
      · simp at hb
      · rename_i hge
        rcases List.mem_cons.mp hb with rfl | hb
        · omega
        · have := List.mem_takeWhile_imp hb
          simp only [decide_eq_true_eq] at this
          omega

theorem le_start_of_head_after {s : ℕ} {ys : List α} {c : α} {r : List α}
    (hc : (place f s ys).2 = c :: r) : s ≤ (f c).start := by
  cases ys with
  | nil => simp [place] at hc
  | cons y ys =>
      rw [place] at hc
      split at hc
      · rename_i hlt
        rw [List.cons.injEq] at hc
        rw [← hc.1]
        omega
      · have hne : ys.dropWhile (fun z => decide ((f z).start < s)) ≠ [] := by
          rw [show ys.dropWhile _ = c :: r from hc]
          simp
        have := List.head_dropWhile_not (fun z => decide ((f z).start < s)) hne
        simp only [show ys.dropWhile _ = c :: r from hc, List.head_cons,
          decide_eq_false_iff_not] at this
        omega

/-- In a coalesced list, a span that overlaps none of the members lies between the two
parts at its place. -/
theorem place_apart (hw : 0 < w) {x : Span} {ys : List α} (h : Coalesced w (ys.map f))
    (hx : 0 < x.size) (hap : ∀ b ∈ ys.map f, Apart w x b) :
    (∀ b ∈ (place f x.start ys).1, (f b).stop w ≤ x.start) ∧
      ∀ c ∈ (place f x.start ys).2, x.stop w ≤ (f c).start := by
  have hxs := start_lt_stop hw hx
  have hsplit := place_append f x.start ys
  have hmem : ∀ b ∈ (place f x.start ys).1 ++ (place f x.start ys).2, Apart w x (f b) := by
    intro b hb
    rw [hsplit] at hb
    exact hap _ (List.mem_map_of_mem hb)
  rw [← hsplit, List.map_append, coalesced_append] at h
  refine ⟨fun b hb => ?_, ?_⟩
  · have := start_le_of_mem_before f hb
    rcases hmem b (List.mem_append_left _ hb) with h' | h'
    · omega
    · exact h'
  · have hge : ∀ c ∈ (place f x.start ys).2, x.start ≤ (f c).start := by
      cases hafter : (place f x.start ys).2 with
      | nil => simp
      | cons c r =>
          have hc := le_start_of_head_after f hafter
          rw [hafter, List.map_cons, coalesced_cons] at h
          refine List.forall_mem_cons.mpr ⟨hc, fun d hd => ?_⟩
          have := h.2.1.2.1 (f d) (List.mem_map_of_mem hd)
          have := start_lt_stop hw h.2.1.1
          omega
    intro c hc
    have := hge c hc
    have := start_lt_stop hw (h.2.1.nonempty (f c) (List.mem_map_of_mem hc))
    rcases hmem c (List.mem_append_right _ hc) with h' | h'
    · exact h'
    · omega

end Place

/-- Inserting a span into a gap that is larger than it on both sides. -/
theorem Coalesced.insert {x : Span} {l r : List Span} (h : Coalesced w (l ++ r)) (hx : 0 < x.size)
    (hl : ∀ b ∈ l, b.stop w < x.start) (hr : ∀ c ∈ r, x.stop w < c.start) :
    Coalesced w (l ++ x :: r) := by
  rw [coalesced_append] at h
  rw [coalesced_append, coalesced_cons]
  refine ⟨h.1, ⟨hx, hr, h.2.1⟩, fun b hb => ?_⟩
  exact List.forall_mem_cons.mpr ⟨hl b hb, h.2.2 b hb⟩

/-! ## What the members of a list inherit

A property that two touching spans pass on to the span they join to is passed on to
all members when a span is returned. -/

section Inherit
variable {Q : Span → Prop}
  (hjoin : ∀ b c : Span, Q b → Q c → b.stop w = c.start → Q ⟨b.start, b.size + c.size⟩)

include hjoin in
theorem forall_mem_pushFront {x : Span} {l : List Span} (h : ∀ b ∈ x :: l, Q b) :
    ∀ b ∈ pushFront w x l, Q b := by
  cases l with
  | nil => exact h
  | cons c r =>
      obtain ⟨hx, hc, hr⟩ : Q x ∧ Q c ∧ ∀ b ∈ r, Q b := by simpa using h
      rw [pushFront]
      split
      · rename_i htouch
        exact List.forall_mem_cons.mpr ⟨hjoin x c hx hc htouch, hr⟩
      · exact h

include hjoin in
theorem forall_mem_settle {x b : Span} {r : List Span} (h : ∀ c ∈ x :: b :: r, Q c) :
    ∀ c ∈ settle w x b r, Q c := by
  obtain ⟨hx, hb, hr⟩ : Q x ∧ Q b ∧ ∀ c ∈ r, Q c := by simpa using h
  rw [settle]
  split
  · rename_i htouch
    exact forall_mem_pushFront hjoin (List.forall_mem_cons.mpr ⟨hjoin b x hb hx htouch, hr⟩)
  · exact List.forall_mem_cons.mpr
      ⟨hb, forall_mem_pushFront hjoin (List.forall_mem_cons.mpr ⟨hx, hr⟩)⟩

include hjoin in
theorem forall_mem_insertAfter {x b : Span} {l : List Span} (h : ∀ c ∈ x :: b :: l, Q c) :
    ∀ c ∈ insertAfter w x b l, Q c := by
  induction l generalizing b with
  | nil => exact forall_mem_settle hjoin h
  | cons e l ih =>
      rw [insertAfter]
      split
      · obtain ⟨hx, hb, hl⟩ : Q x ∧ Q b ∧ ∀ c ∈ e :: l, Q c := by simpa using h
        exact List.forall_mem_cons.mpr ⟨hb, ih (List.forall_mem_cons.mpr ⟨hx, hl⟩)⟩
      · exact forall_mem_settle hjoin h

include hjoin in
theorem forall_mem_put {x : Span} {l : List Span} (h : ∀ b ∈ x :: l, Q b) :
    ∀ b ∈ put w x l, Q b := by
  cases l with
  | nil => exact h
  | cons b l =>
      rw [put]
      split
      · exact forall_mem_pushFront hjoin h
      · exact forall_mem_insertAfter hjoin h

end Inherit

/-- Where a member starts after a release: where the released span or an old member did. -/
theorem start_mem_put {x : Span} {l : List Span} {c : Span} (hc : c ∈ put w x l) :
    ∃ d ∈ x :: l, c.start = d.start := by
  refine forall_mem_put (Q := fun b => ∃ d ∈ x :: l, b.start = d.start) ?_ ?_ c hc
  · rintro b c ⟨d, hd, he⟩ - -
    exact ⟨d, hd, he⟩
  · exact fun b hb => ⟨b, hb, rfl⟩

/-- A span that overlaps neither a returned span nor the list overlaps no member
afterwards. -/
theorem apart_put {x y : Span} {l : List Span} (hw : 0 < w) (hy : 0 < y.size)
    (h : ∀ b ∈ x :: l, Apart w y b) : ∀ b ∈ put w x l, Apart w y b := by
  refine forall_mem_put (fun b c hb hc htouch => ?_) h
  have hys := start_lt_stop hw hy
  have hjoined : (⟨b.start, b.size + c.size⟩ : Span).stop w = c.stop w := by
    simp only [Span.stop, Nat.add_mul] at htouch ⊢
    omega
  rw [Apart, hjoined]
  rcases hb with hb | hb
  · exact .inl hb
  · rcases hc with hc | hc
    · omega
    · exact .inr hc

/-! ## Lists with the same points -/

/-- The first member starts at the first point, and its end is the first point after it
that is not covered. -/
theorem Coalesced.countP_stop (hw : 0 < w) {b : Span} {l : List Span} (h : Coalesced w (b :: l)) :
    (b :: l).countP (Span.covers w (b.stop w)) = 0 := by
  obtain ⟨-, hbl, -⟩ := coalesced_cons.mp h
  rw [List.countP_eq_zero]
  intro c hc hcov
  obtain ⟨hge, hlt⟩ := Span.covers_bounds hw hcov
  rcases List.mem_cons.mp hc with rfl | hc
  · omega
  · have := hbl c hc
    omega

theorem Coalesced.start_le (hw : 0 < w) {b : Span} {l : List Span} (h : Coalesced w (b :: l))
    {a : ℕ} (ha : 0 < (b :: l).countP (Span.covers w a)) : b.start ≤ a := by
  obtain ⟨hb, hbl, -⟩ := coalesced_cons.mp h
  obtain ⟨c, hc, hcov⟩ := List.countP_pos_iff.mp ha
  have hge := (Span.covers_bounds hw hcov).1
  rcases List.mem_cons.mp hc with rfl | hc
  · exact hge
  · have := hbl c hc
    have := start_lt_stop hw hb
    omega

theorem countP_start_pos (hw : 0 < w) {b : Span} (hb : 0 < b.size) (l : List Span) :
    0 < (b :: l).countP (Span.covers w b.start) :=
  List.countP_pos_iff.mpr ⟨b, List.mem_cons_self .., Span.covers_start hw hb⟩

/-- Of two first members with the same points after them, neither is shorter. -/
theorem Coalesced.size_le (hw : 0 < w) {b c : Span} {l r : List Span} (h : Coalesced w (b :: l))
    (hs : b.start = c.start)
    (he : (b :: l).countP (Span.covers w (b.stop w)) = (c :: r).countP (Span.covers w (b.stop w))) :
    c.size ≤ b.size := by
  by_contra hlt
  have hpos : 0 < (c :: r).countP (Span.covers w (b.stop w)) := by
    refine List.countP_pos_iff.mpr ⟨c, List.mem_cons_self .., (Span.covers_iff hw).mpr ?_⟩
    exact ⟨b.size, by omega, by rw [Span.stop, hs]⟩
  rw [← he, h.countP_stop hw] at hpos
  omega

/-- **A coalesced list is determined by the points it covers.** -/
theorem Coalesced.unique (hw : 0 < w) {l r : List Span} (h : Coalesced w l) (h' : Coalesced w r)
    (he : ∀ a, l.countP (Span.covers w a) = r.countP (Span.covers w a)) : l = r := by
  induction l generalizing r with
  | nil =>
      cases r with
      | nil => rfl
      | cons c r =>
          have := countP_start_pos hw (coalesced_cons.mp h').1 r
          rw [← he] at this
          simp at this
  | cons b l ih =>
      have hb := (coalesced_cons.mp h).1
      cases r with
      | nil =>
          have := countP_start_pos hw hb l
          rw [he] at this
          simp at this
      | cons c r =>
          have hc := (coalesced_cons.mp h').1
          have hs : b.start = c.start := by
            apply Nat.le_antisymm
            · exact h.start_le hw (by rw [he]; exact countP_start_pos hw hc r)
            · exact h'.start_le hw (by rw [← he]; exact countP_start_pos hw hb l)
          have hn : b.size = c.size := by
            apply Nat.le_antisymm
            · exact h'.size_le hw hs.symm (he _).symm
            · exact h.size_le hw hs (he _)
          obtain rfl : b = c := by
            cases b
            cases c
            simp_all
          rw [ih (coalesced_cons.mp h).2.2 (coalesced_cons.mp h').2.2 fun a => ?_]
          have := he a
          rw [List.countP_cons, List.countP_cons] at this
          omega

/-- What is cut off a coalesced list overlaps nothing of what remains. -/
theorem Coalesced.apart_take {n s : ℕ} {l l' : List Span} (h : Coalesced w l)
    (ht : FreeList.take w n l = some (s, l')) : ∀ b ∈ l', Apart w ⟨s, n⟩ b := by
  obtain ⟨l₁, b, r, rfl, -, hb, rfl, rfl⟩ := exists_of_take ht
  obtain ⟨-, hbr, hlb⟩ := coalesced_append.mp h
  have hcut : (⟨b.start, n⟩ : Span).stop w ≤ b.stop w :=
    Nat.add_le_add_left (Nat.mul_le_mul_right _ hb) _
  intro c hc
  simp only [List.mem_append] at hc
  rcases hc with (hc | hc) | hc
  · right
    exact Nat.le_of_lt (hlb c hc b (List.mem_cons_self ..))
  · left
    rw [rest] at hc
    split at hc
    · simp at hc
    · rw [List.mem_singleton] at hc
      rw [hc]
      exact le_refl _
  · left
    have := (coalesced_cons.mp hbr).2.1 c hc
    omega

end FreeList
