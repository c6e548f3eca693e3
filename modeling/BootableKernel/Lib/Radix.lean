import Mathlib.Data.List.Induction
import Mathlib.Logic.Function.Basic

/-!
# Multi-level lookup tables in memory

A memory maps a table and an index to an entry; an entry may designate a further
table. A path of indices leads from a root table to another one, or nowhere. When no
table is reached along two paths the structure is a tree, and then a write to one
entry is seen along one path only: `view` lists the entries by path, and both ways of
changing an entry act on it as a single-point update.

## Main definitions

* `walk` — the table a path leads to.
* `Tree` — no two paths of bounded length lead to the same table.
* `view` — the entry at a path, with a default where the path leads nowhere.
* `view_rewrite`, `view_link` — changing an entry in place, and hanging a fresh empty
  table below an entry that designated none.
-/

namespace Radix

variable {F I E : Type} (next : E → Option F)

/-- Follow a path of indices from table `t`. -/
def walk (m : F → I → E) : F → List I → Option F
  | t, [] => some t
  | t, i :: p => (next (m t i)).bind fun t' => walk m t' p

@[simp] theorem walk_nil (m : F → I → E) (t : F) : walk next m t [] = some t := rfl

theorem walk_append (m : F → I → E) (t : F) (p q : List I) :
    walk next m t (p ++ q) = (walk next m t p).bind fun t' => walk next m t' q := by
  induction p generalizing t with
  | nil => rfl
  | cons i p ih =>
      simp only [List.cons_append, walk]
      cases next (m t i) with
      | none => rfl
      | some t' => exact ih t'

theorem walk_snoc (m : F → I → E) (t : F) (p : List I) (i : I) :
    walk next m t (p ++ [i]) = (walk next m t p).bind fun t' => next (m t' i) := by
  rw [walk_append]
  cases walk next m t p with
  | none => rfl
  | some t' => simp [walk]

/-- Paths depend only on which table each entry designates. -/
theorem walk_congr {m m' : F → I → E} (h : ∀ t i, next (m' t i) = next (m t i)) (t : F)
    (p : List I) : walk next m' t p = walk next m t p := by
  induction p generalizing t with
  | nil => rfl
  | cons i p ih => simp only [walk, h, ih]

/-- No two paths of length at most `d` lead from `root` to the same table. -/
def Tree (m : F → I → E) (root : F) (d : ℕ) : Prop :=
  ∀ p q t, p.length ≤ d → q.length ≤ d →
    walk next m root p = some t → walk next m root q = some t → p = q

/-- Table `t` is reached from `root` by no path of length at most `d`. -/
def Unreached (m : F → I → E) (root : F) (d : ℕ) (t : F) : Prop :=
  ∀ p, p.length ≤ d → walk next m root p ≠ some t

/-- The entry at path `p`, index `i`; `e₀` where the path leads nowhere. -/
def view (e₀ : E) (m : F → I → E) (root : F) (p : List I) (i : I) : E :=
  match walk next m root p with
  | none => e₀
  | some t => m t i

variable {next}

theorem view_of_walk {e₀ : E} {m : F → I → E} {root t : F} {p : List I}
    (h : walk next m root p = some t) (i : I) : view next e₀ m root p i = m t i := by
  simp [view, h]

theorem view_of_none {e₀ : E} {m : F → I → E} {root : F} {p : List I}
    (h : walk next m root p = none) (i : I) : view next e₀ m root p i = e₀ := by
  simp [view, h]

/-- A path leads on exactly through the entries that designate a table. -/
theorem walk_snoc_view {e₀ : E} (h₀ : next e₀ = none) (m : F → I → E) (root : F) (p : List I)
    (i : I) : walk next m root (p ++ [i]) = next (view next e₀ m root p i) := by
  rw [walk_snoc]
  cases h : walk next m root p with
  | none => rw [view_of_none h, h₀]; rfl
  | some t => rw [view_of_walk h]; rfl

/-- The contents of tables that no path leads to do not matter. -/
theorem walk_agree {m m' : F → I → E} {root : F} {d : ℕ}
    (h : ∀ p, p.length < d → ∀ t, walk next m root p = some t → m' t = m t) {p : List I}
    (hp : p.length ≤ d) : walk next m' root p = walk next m root p := by
  induction p using List.reverseRecOn with
  | nil => rfl
  | append_singleton p i ih =>
      rw [List.length_append, List.length_singleton] at hp
      rw [walk_snoc, walk_snoc, ih (by omega)]
      cases hw : walk next m root p with
      | none => rfl
      | some t => rw [Option.bind_some, Option.bind_some, h p (by omega) t hw]

theorem view_agree {e₀ : E} {m m' : F → I → E} {root : F} {d : ℕ}
    (h : ∀ p, p.length ≤ d → ∀ t, walk next m root p = some t → m' t = m t) {p : List I}
    (hp : p.length ≤ d) (i : I) : view next e₀ m' root p i = view next e₀ m root p i := by
  have hsame : walk next m' root p = walk next m root p :=
    walk_agree (fun q hq => h q (Nat.le_of_lt hq)) hp
  cases hw : walk next m root p with
  | none => rw [view_of_none (hsame.trans hw), view_of_none hw]
  | some t => rw [view_of_walk (hsame.trans hw), view_of_walk hw, h p hp t hw]

section Writes
variable [DecidableEq F] [DecidableEq I]

/-- Write one entry. -/
def setEntry (m : F → I → E) (t : F) (i : I) (e : E) : F → I → E :=
  fun t' i' => if t' = t ∧ i' = i then e else m t' i'

@[simp] theorem setEntry_self (m : F → I → E) (t : F) (i : I) (e : E) :
    setEntry m t i e t i = e := by simp [setEntry]

theorem setEntry_of_ne (m : F → I → E) {t t' : F} {i i' : I} (e : E)
    (h : ¬ (t' = t ∧ i' = i)) : setEntry m t i e t' i' = m t' i' := by
  simp only [setEntry, if_neg h]

/-- The other tables are as before. -/
theorem setEntry_table_ne (m : F → I → E) {t t' : F} (h : t' ≠ t) {i : I} {e : E} :
    setEntry m t i e t' = m t' := by
  funext j
  exact setEntry_of_ne m e fun hc => h hc.1

/-- In a tree, an entry is found along one path only. -/
theorem view_setEntry {e₀ e : E} {m : F → I → E} {root t : F} {d : ℕ} {p : List I} {i : I}
    (ht : Tree next m root d) (hp : p.length ≤ d) (hw : walk next m root p = some t)
    {q : List I} (hq : q.length ≤ d)
    (hsame : walk next (setEntry m t i e) root q = walk next m root q) (j : I) :
    view next e₀ (setEntry m t i e) root q j =
      if q = p ∧ j = i then e else view next e₀ m root q j := by
  cases h : walk next m root q with
  | none =>
      have hne : ¬ (q = p ∧ j = i) := by
        rintro ⟨rfl, -⟩
        rw [h] at hw
        exact absurd hw (by simp)
      rw [view_of_none h, view_of_none (hsame.trans h), if_neg hne]
  | some s =>
      rw [view_of_walk h, view_of_walk (hsame.trans h)]
      have hiff : (s = t ∧ j = i) ↔ (q = p ∧ j = i) := by
        refine and_congr_left fun _ => ⟨fun hs => ?_, fun hqp => ?_⟩
        · exact ht q p t hq hp (hs ▸ h) hw
        · subst hqp
          exact Option.some.inj (h.symm.trans hw)
      simp only [setEntry, hiff]

/-- Rewriting an entry that keeps designating the same table. -/
theorem walk_rewrite {e : E} {m : F → I → E} {t : F} {i : I} (he : next e = next (m t i))
    (root : F) (q : List I) : walk next (setEntry m t i e) root q = walk next m root q := by
  refine walk_congr next (fun t' i' => ?_) root q
  by_cases h : t' = t ∧ i' = i
  · obtain ⟨rfl, rfl⟩ := h
    rw [setEntry_self, he]
  · rw [setEntry_of_ne m e h]

theorem tree_rewrite {e : E} {m : F → I → E} {root t : F} {i : I} {d : ℕ}
    (ht : Tree next m root d) (he : next e = next (m t i)) :
    Tree next (setEntry m t i e) root d := by
  intro p q s hp hq h₁ h₂
  rw [walk_rewrite he] at h₁ h₂
  exact ht p q s hp hq h₁ h₂

theorem view_rewrite {e₀ e : E} {m : F → I → E} {root t : F} {d : ℕ} {p : List I} {i : I}
    (ht : Tree next m root d) (hp : p.length ≤ d) (hw : walk next m root p = some t)
    (he : next e = next (m t i)) {q : List I} (hq : q.length ≤ d) (j : I) :
    view next e₀ (setEntry m t i e) root q j =
      if q = p ∧ j = i then e else view next e₀ m root q j :=
  view_setEntry ht hp hw hq (walk_rewrite he root q) j

/-- Writing an entry of a table at the greatest depth changes no path. -/
theorem walk_deep {e : E} {m : F → I → E} {root t : F} {d : ℕ} {p : List I} {i : I}
    (ht : Tree next m root d) (hp : p.length = d) (hw : walk next m root p = some t)
    {q : List I} (hq : q.length ≤ d) :
    walk next (setEntry m t i e) root q = walk next m root q := by
  induction q using List.reverseRecOn with
  | nil => rfl
  | append_singleton q j ih =>
      have hqd : q.length < d := by simp at hq; omega
      rw [walk_snoc, walk_snoc, ih (by omega)]
      cases h : walk next m root q with
      | none => rfl
      | some s =>
          have hst : ¬ (s = t ∧ j = i) := by
            rintro ⟨rfl, -⟩
            have := ht q p s (by omega) (by omega) h hw
            rw [this] at hqd
            omega
          simp [setEntry_of_ne _ e hst]

theorem tree_deep {e : E} {m : F → I → E} {root t : F} {d : ℕ} {p : List I} {i : I}
    (ht : Tree next m root d) (hp : p.length = d) (hw : walk next m root p = some t) :
    Tree next (setEntry m t i e) root d := by
  intro q r s hq hr h₁ h₂
  rw [walk_deep ht hp hw hq] at h₁
  rw [walk_deep ht hp hw hr] at h₂
  exact ht q r s hq hr h₁ h₂

/-! ## Linking a fresh table -/

variable {e₀ e : E} {m : F → I → E} {root t f : F} {d : ℕ} {p : List I} {i : I}

/-- Hanging a fresh empty table `f` below an entry that designated none adds one path. -/
theorem walk_link (ht : Tree next m root d) (h₀ : next e₀ = none) (hp : p.length < d)
    (hw : walk next m root p = some t) (hnone : next (m t i) = none) (he : next e = some f)
    (hf : Unreached next m root d f) {q : List I} (hq : q.length ≤ d) :
    walk next (setEntry (Function.update m f fun _ => e₀) t i e) root q =
      if q = p ++ [i] then some f else walk next m root q := by
  have htf : t ≠ f := fun h => hf p (by omega) (h ▸ hw)
  induction q using List.reverseRecOn with
  | nil => simp
  | append_singleton q j ih =>
      have hqd : q.length ≤ d := by simp at hq; omega
      rw [walk_snoc, ih hqd]
      by_cases hqp : q = p ++ [i]
      · -- Below the fresh table every entry is empty.
        subst hqp
        have hold : walk next m root (p ++ [i] ++ [j]) = none := by
          rw [walk_snoc, walk_snoc, hw]
          simp [hnone]
        have hne : ¬ (p ++ [i] ++ [j] = p ++ [i]) := by simp
        rw [if_pos rfl, if_neg hne, hold]
        simp [setEntry_of_ne _ e (fun h : f = t ∧ j = i => htf h.1.symm), h₀]
      · rw [if_neg hqp, walk_snoc next m]
        cases h : walk next m root q with
        | none =>
            have hne : ¬ (q ++ [j] = p ++ [i]) := by
              intro hc
              have hq' : q = p := by simpa using (List.append_inj' hc rfl).1
              rw [hq', hw] at h
              exact absurd h (by simp)
            rw [if_neg hne]
            rfl
        | some s =>
            have hsf : s ≠ f := fun hs => hf q hqd (hs ▸ h)
            by_cases hc : s = t ∧ j = i
            · obtain ⟨rfl, rfl⟩ := hc
              have hq' : q = p := ht q p s hqd (by omega) h hw
              simp [hq', he]
            · have hne : ¬ (q ++ [j] = p ++ [i]) := by
                intro hcon
                obtain ⟨hq', hj⟩ := List.append_inj' hcon rfl
                refine hc ⟨?_, by simpa using hj⟩
                rw [hq', hw] at h
                exact (Option.some.inj h).symm
              rw [if_neg hne]
              simp [setEntry_of_ne _ e hc, Function.update_of_ne hsf]

theorem tree_link (ht : Tree next m root d) (h₀ : next e₀ = none) (hp : p.length < d)
    (hw : walk next m root p = some t) (hnone : next (m t i) = none) (he : next e = some f)
    (hf : Unreached next m root d f) :
    Tree next (setEntry (Function.update m f fun _ => e₀) t i e) root d := by
  intro q r s hq hr h₁ h₂
  rw [walk_link ht h₀ hp hw hnone he hf hq] at h₁
  rw [walk_link ht h₀ hp hw hnone he hf hr] at h₂
  by_cases hq' : q = p ++ [i] <;> by_cases hr' : r = p ++ [i]
  · rw [hq', hr']
  · rw [if_pos hq'] at h₁
    rw [if_neg hr', ← h₁] at h₂
    exact absurd h₂ (hf r hr)
  · rw [if_neg hq'] at h₁
    rw [if_pos hr'] at h₂
    rw [← h₂] at h₁
    exact absurd h₁ (hf q hq)
  · rw [if_neg hq'] at h₁
    rw [if_neg hr'] at h₂
    exact ht q r s hq hr h₁ h₂

theorem view_link (ht : Tree next m root d) (h₀ : next e₀ = none) (hp : p.length < d)
    (hw : walk next m root p = some t) (hnone : next (m t i) = none) (he : next e = some f)
    (hf : Unreached next m root d f) {q : List I} (hq : q.length ≤ d) (j : I) :
    view next e₀ (setEntry (Function.update m f fun _ => e₀) t i e) root q j =
      if q = p ∧ j = i then e else view next e₀ m root q j := by
  have htf : t ≠ f := fun h => hf p (by omega) (h ▸ hw)
  have hwalk := walk_link ht h₀ hp hw hnone he hf hq
  by_cases hqp : q = p ++ [i]
  · -- The fresh table shows the default, as the missing one did.
    subst hqp
    rw [if_pos rfl] at hwalk
    have hold : walk next m root (p ++ [i]) = none := by
      rw [walk_snoc, hw]
      simpa using hnone
    have hne : ¬ (p ++ [i] = p ∧ j = i) := by simp
    rw [view_of_walk hwalk, view_of_none hold, if_neg hne,
      setEntry_of_ne _ e (fun h : f = t ∧ j = i => htf h.1.symm), Function.update_self]
  · rw [if_neg hqp] at hwalk
    cases h : walk next m root q with
    | none =>
        have hne : ¬ (q = p ∧ j = i) := by
          rintro ⟨rfl, -⟩
          rw [h] at hw
          exact absurd hw (by simp)
        rw [view_of_none (hwalk.trans h), view_of_none h, if_neg hne]
    | some s =>
        have hsf : s ≠ f := fun hs => hf q hq (hs ▸ h)
        rw [view_of_walk (hwalk.trans h), view_of_walk h]
        by_cases hc : s = t ∧ j = i
        · obtain ⟨rfl, rfl⟩ := hc
          have hq' : q = p := ht q p s hq (by omega) h hw
          simp [hq']
        · have hne : ¬ (q = p ∧ j = i) := by
            rintro ⟨rfl, rfl⟩
            exact hc ⟨Option.some.inj (h.symm.trans hw), rfl⟩
          rw [setEntry_of_ne _ e hc, Function.update_of_ne hsf, if_neg hne]

end Writes
end Radix
