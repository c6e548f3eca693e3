import Mathlib.Data.List.Basic
import Mathlib.Logic.Function.Basic
import Mathlib.Algebra.Order.Group.Nat

/-!
# Passes over a buffer

A buffer is a function from indices to values, and a loop that stores to it one index
after the other is a fold of `Function.update` over the indices it visits. When no store
of the pass disturbs what a later store of the same pass reads, the pass can be read
off index by index: a visited index holds the value computed from the buffer *before*
the pass, any other index is unchanged. This covers loops that only write as well as
loops that work in place and read ahead.
-/

namespace Buffer

variable {β : Type*}

/-- Store `v i` at every index `i` of the list, in order; `v` may read the buffer. -/
def pass (v : ℕ → (ℕ → β) → β) (is : List ℕ) (b : ℕ → β) : ℕ → β :=
  is.foldl (fun b i => Function.update b i (v i b)) b

/-- No store of the pass is read by a later one. -/
def Stable (v : ℕ → (ℕ → β) → β) (is : List ℕ) : Prop :=
  is.Pairwise fun i j => ∀ b x, v j (Function.update b i x) = v j b

@[simp] theorem pass_nil (v : ℕ → (ℕ → β) → β) (b : ℕ → β) : pass v [] b = b := rfl

@[simp] theorem pass_cons (v : ℕ → (ℕ → β) → β) (i : ℕ) (is : List ℕ) (b : ℕ → β) :
    pass v (i :: is) b = pass v is (Function.update b i (v i b)) := rfl

/-- A stable pass, index by index. -/
theorem Stable.pass_apply {v : ℕ → (ℕ → β) → β} {is : List ℕ} (h : Stable v is)
    (b : ℕ → β) (j : ℕ) :
    pass v is b j = if j ∈ is then v j b else b j := by
  induction is generalizing b with
  | nil => simp
  | cons i is ih =>
      obtain ⟨hi, his⟩ := List.pairwise_cons.mp h
      rw [pass_cons, ih his]
      by_cases hj : j ∈ is
      · simp [hj, hi j hj]
      · by_cases hji : j = i
        · subst j
          simp [hj]
        · simp [hj, hji]

/-- A pass that only writes is stable. -/
theorem stable_const (g : ℕ → β) (is : List ℕ) : Stable (fun i _ => g i) is :=
  List.pairwise_of_forall fun _ _ _ _ => rfl

/-- A pass that reads `d` places ahead is stable when no index is `d` places ahead of a
later one. -/
theorem stable_ahead (f : ℕ → β → β) (d : ℕ) {is : List ℕ}
    (h : is.Pairwise fun i j => i ≠ j + d) : Stable (fun i b => f i (b (i + d))) is := by
  refine h.imp ?_
  intro i j hij b x
  simp only [Function.update_of_ne (Ne.symm hij)]

/-- The indices of two nested loops, the outer one first. -/
def nest (n k : ℕ) (idx : ℕ → ℕ → ℕ) : List ℕ :=
  (List.range n).flatMap fun a => (List.range k).map fun b => idx a b

theorem mem_nest {n k : ℕ} {idx : ℕ → ℕ → ℕ} {i : ℕ} :
    i ∈ nest n k idx ↔ ∃ a < n, ∃ b < k, idx a b = i := by
  simp [nest]

/-- Two nested loops are one pass over their indices, when the value stored depends on
the index only. -/
theorem foldl_nest (v : ℕ → (ℕ → β) → β) {n k : ℕ} {idx : ℕ → ℕ → ℕ}
    {value : ℕ → ℕ → (ℕ → β) → β}
    (hv : ∀ a < n, ∀ c < k, ∀ b, value a c b = v (idx a c) b) (b : ℕ → β) :
    (List.range n).foldl (fun b a => (List.range k).foldl
      (fun b c => Function.update b (idx a c) (value a c b)) b) b =
      pass v (nest n k idx) b := by
  rw [pass, nest, List.foldl_flatMap]
  simp only [List.foldl_map]
  apply List.foldl_ext
  intro b a ha
  apply List.foldl_ext
  intro b c hc
  rw [hv a (List.mem_range.mp ha) c (List.mem_range.mp hc)]

/-- Later rounds of the outer loop keep the relation to earlier ones when every two
rounds do. -/
theorem pairwise_nest {R : ℕ → ℕ → Prop} {n k : ℕ} {idx : ℕ → ℕ → ℕ}
    (hin : ∀ a < n, ∀ c d, c < d → d < k → R (idx a c) (idx a d))
    (hout : ∀ a b, a < b → b < n → ∀ c < k, ∀ d < k, R (idx a c) (idx b d)) :
    (nest n k idx).Pairwise R := by
  rw [nest, List.pairwise_flatMap]
  constructor
  · intro a ha
    rw [List.pairwise_map]
    refine List.pairwise_lt_range.imp_of_mem ?_
    intro c d _ hd hcd
    exact hin a (List.mem_range.mp ha) c d hcd (List.mem_range.mp hd)
  · refine List.pairwise_lt_range.imp_of_mem ?_
    intro a b _ hb hab x hx y hy
    obtain ⟨c, hc, rfl⟩ := List.mem_map.mp hx
    obtain ⟨d, hd, rfl⟩ := List.mem_map.mp hy
    exact hout a b hab (List.mem_range.mp hb) c (List.mem_range.mp hc) d (List.mem_range.mp hd)

/-! ## Row-major positions -/

theorem rowMajor_div {x w : ℕ} (hx : x < w) (y : ℕ) : (x + y * w) / w = y := by
  rw [Nat.add_mul_div_right x y (by omega), Nat.div_eq_of_lt hx, Nat.zero_add]

theorem rowMajor_mod {x w : ℕ} (hx : x < w) (y : ℕ) : (x + y * w) % w = x := by
  rw [Nat.add_mul_mod_self_right, Nat.mod_eq_of_lt hx]

/-- A position determines its row and column. -/
theorem rowMajor_inj {x x' w y y' : ℕ} (hx : x < w) (hx' : x' < w) :
    x + y * w = x' + y' * w ↔ x = x' ∧ y = y' := by
  constructor
  · intro h
    have hm := congrArg (· % w) h
    have hd := congrArg (· / w) h
    simp only [rowMajor_mod hx, rowMajor_mod hx', rowMajor_div hx, rowMajor_div hx'] at hm hd
    exact ⟨hm, hd⟩
  · rintro ⟨rfl, rfl⟩
    rfl

theorem rowMajor_lt {x y w h : ℕ} (hx : x < w) (hy : y < h) : x + y * w < w * h := by
  calc x + y * w < (y + 1) * w := by rw [Nat.succ_mul]; omega
    _ ≤ h * w := Nat.mul_le_mul_right w hy
    _ = w * h := Nat.mul_comm h w

end Buffer
