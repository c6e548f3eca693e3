import BootableKernel.Heap.Calls

/-!
# The bound on the turns

The loops of the heap take a bound on their turns. It decides only whether there is a
result: a larger bound gives the same one. So a result says what the code does, whatever
the bound was, and `turns` is a bound that is always large enough.
-/

namespace BootableKernel

namespace Liballoc

variable {σ : Type} {K : Hooks σ}

/-- Whatever `f` results in, `g` results in. -/
def Extends {α : Type} (f g : Option α) : Prop := ∀ r, f = some r → g = some r

theorem Extends.refl {α : Type} (f : Option α) : Extends f f := fun _ h => h

theorem Extends.bind {α β : Type} {f g : Option α} {k k' : α → Option β} (h : Extends f g)
    (hk : ∀ a, Extends (k a) (k' a)) : Extends (f.bind k) (g.bind k') := by
  intro r hr
  obtain ⟨a, ha, hka⟩ := Option.bind_eq_some_iff.mp hr
  rw [h a ha]
  exact hk a r hka

theorem Extends.ite {α : Type} {c : Prop} [Decidable c] {f f' g g' : Option α} (h : Extends f f')
    (h' : Extends g g') : Extends (if c then f else g) (if c then f' else g') := by
  split
  · exact h
  · exact h'

section
variable {size req fuel fuel' : ℕ} {startedBet : Bool} {s : Heap σ}

theorem searchMinors_extends (hle : fuel ≤ fuel') (maj min : ℕ) (s : Heap σ) :
    Extends (searchMinors size req maj fuel min s) (searchMinors size req maj fuel' min s) := by
  induction fuel generalizing fuel' min with
  | zero =>
      intro r hr
      cases hr
  | succ fuel ih =>
      obtain ⟨k, rfl⟩ : ∃ k, fuel' = k + 1 := ⟨fuel' - 1, by omega⟩
      rw [searchMinors, searchMinors]
      exact .ite (.refl _) (.ite (.refl _) (ih (by omega) _))

theorem placeIn_extends (hle : fuel ≤ fuel') (maj : ℕ) (s : Heap σ) :
    Extends (placeIn size req fuel maj s) (placeIn size req fuel' maj s) := by
  rw [placeIn, placeIn]
  exact .ite (.refl _) (.ite (.refl _) (searchMinors_extends hle maj _ s))

section
variable {again again' : ℕ → Bool → Heap σ → Option (ℕ × Heap σ)}

theorem settle_extends (hle : fuel ≤ fuel')
    (hagain : ∀ next startedBet t, Extends (again next startedBet t) (again' next startedBet t))
    (maj : ℕ) (s : Heap σ) : Extends (settle K size req fuel startedBet again maj s)
      (settle K size req fuel' startedBet again' maj s) := by
  cases hplace : placeIn size req fuel maj s with
  | none =>
      intro r hr
      rw [settle, hplace] at hr
      cases hr
  | some place =>
      rw [settle, settle, hplace, placeIn_extends hle maj s place hplace]
      cases place with
      | some result => exact .refl _
      | none =>
          dsimp only
          exact .ite (hagain _ _ _) (.ite (hagain _ _ _) (.ite (.refl _) (hagain _ _ _)))

theorem visit_extends (hle : fuel ≤ fuel')
    (hagain : ∀ next startedBet t, Extends (again next startedBet t) (again' next startedBet t))
    (maj : ℕ) (s : Heap σ) : Extends (visit K size req fuel startedBet again maj s)
      (visit K size req fuel' startedBet again' maj s) := by
  rw [visit, visit]
  dsimp only
  exact .ite
    (.ite (hagain _ _ _) (.ite (hagain _ _ _) (.ite (.refl _) (settle_extends hle hagain _ _))))
    (settle_extends hle hagain _ _)

end

theorem searchMajors_extends (hle : fuel ≤ fuel') (maj : ℕ) (startedBet : Bool) (bestSize : ℕ)
    (s : Heap σ) : Extends (searchMajors K size req fuel maj startedBet bestSize s)
      (searchMajors K size req fuel' maj startedBet bestSize s) := by
  induction fuel generalizing fuel' maj startedBet bestSize s with
  | zero =>
      intro r hr
      cases hr
  | succ fuel ih =>
      obtain ⟨k, rfl⟩ : ∃ k, fuel' = k + 1 := ⟨fuel' - 1, by omega⟩
      have hle' : fuel ≤ k := Nat.le_of_succ_le_succ hle
      rw [searchMajors, searchMajors]
      exact .ite (.refl _) (.ite
        (visit_extends hle' (fun _ _ _ => ih hle' _ _ _ _) maj _)
        (visit_extends hle' (fun _ _ _ => ih hle' _ _ _ _) maj _))

theorem kmallocSized_extends (hle : fuel ≤ fuel') (s : Heap σ) :
    Extends (kmallocSized K fuel size req s) (kmallocSized K fuel' size req s) := by
  have hfrom : ∀ t, Extends (searchFrom K fuel size req t) (searchFrom K fuel' size req t) := by
    intro t
    rw [searchFrom, searchFrom]
    exact .ite (searchMajors_extends hle _ _ _ t)
      (.ite (searchMajors_extends hle _ _ _ t) (searchMajors_extends hle _ _ _ t))
  rw [kmallocSized, kmallocSized]
  exact .ite (.ite (.refl _) (hfrom _)) (hfrom s)

/-- **A larger bound gives the same result.** -/
theorem kmalloc_extends (hle : fuel ≤ fuel') (req : ℕ) (s : Heap σ) :
    Extends (kmalloc K fuel req s) (kmalloc K fuel' req s) := by
  rw [kmalloc, kmalloc]
  exact .ite (kmallocSized_extends hle _) (kmallocSized_extends hle s)

@[inherit_doc kmalloc_extends]
theorem kcalloc_extends (hle : fuel ≤ fuel') (nobj size : ℕ) (s : Heap σ) :
    Extends (kcalloc K fuel nobj size s) (kcalloc K fuel' nobj size s) := by
  rw [kcalloc, kcalloc]
  exact (kmalloc_extends hle _ s).bind fun _ => .refl _

@[inherit_doc kmalloc_extends]
theorem krealloc_extends (hle : fuel ≤ fuel') (p size : ℕ) (s : Heap σ) :
    Extends (krealloc K fuel p size s) (krealloc K fuel' p size s) := by
  rw [krealloc, krealloc]
  exact .ite (.refl _) (.ite (kmalloc_extends hle size s) (.ite (.refl _) (.ite (.refl _)
    ((kmalloc_extends hle size s).bind fun _ => .refl _))))

end

end Liballoc

end BootableKernel
