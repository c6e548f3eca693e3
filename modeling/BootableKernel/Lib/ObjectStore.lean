import Mathlib.Data.List.Basic
import Mathlib.Logic.Function.Basic

/-!
# Object stores

What a memory allocator is for, seen by its clients. A store maps the addresses of the live
objects to what they contain. An operation is answered with an address; the answer `null`
means that it was refused, and then nothing changes. `Step` leaves the address of a new
object open, and what it contains if it was not cleared.

A client knows which objects are live, and their sizes, from its operations and their
answers alone. This is the `ledger` of a run, and `Allowed` is what a client may do.

## Main results

* `Run.keeps` — an object that no operation is about keeps its contents.
* `Run.ledger` — the ledger describes the store.
-/

namespace ObjectStore

/-- The objects by their address. -/
abbrev Store (A V : Type*) := A → Option (List V)

/-- An operation on the store. -/
inductive Op (A V : Type*)
  /-- A new object of `n` cells. -/
  | alloc (n : ℕ)
  /-- A new object of `n` cells that are all zero. -/
  | clear (n : ℕ)
  /-- The object at `a`, with `n` cells. -/
  | resize (a : A) (n : ℕ)
  | release (a : A)
  | write (a : A) (i : ℕ) (v : V)

variable {A V : Type*}

/-- The object that an operation is about. -/
def Op.target : Op A V → Option A
  | .alloc _ | .clear _ => none
  | .resize a _ | .release a | .write a _ _ => some a

variable [DecidableEq A] (null : A) (zero : V)

/-- An operation on the store, and its answer. -/
inductive Step : Store A V → Op A V → A → Store A V → Prop
  | refuse {o : Store A V} {op : Op A V} : op.target = none → Step o op null o
  | alloc {o : Store A V} {a : A} {n : ℕ} {xs : List V} : a ≠ null → o a = none → xs.length = n →
      Step o (.alloc n) a (Function.update o a (some xs))
  | clear {o : Store A V} {a : A} {n : ℕ} : a ≠ null → o a = none →
      Step o (.clear n) a (Function.update o a (some (List.replicate n zero)))
  | refuseResize {o : Store A V} {a : A} {n : ℕ} : Step o (.resize a n) null o
  | resize {o : Store A V} {a b : A} {n : ℕ} {xs ys : List V} : o a = some xs → b ≠ null →
      b = a ∨ o b = none → ys.length = n →
      ys.take (min xs.length n) = xs.take (min xs.length n) →
      Step o (.resize a n) b (Function.update (Function.update o a none) b (some ys))
  | releaseNull {o : Store A V} : Step o (.release null) null o
  | release {o : Store A V} {a : A} {xs : List V} : o a = some xs →
      Step o (.release a) null (Function.update o a none)
  | write {o : Store A V} {a : A} {i : ℕ} {v : V} {xs : List V} : o a = some xs → i < xs.length →
      Step o (.write a i v) null (Function.update o a (some (xs.set i v)))

/-- Operations with their answers, the first one first. -/
inductive Run : Store A V → List (Op A V × A) → Store A V → Prop
  | nil {o : Store A V} : Run o [] o
  | snoc {o o' o'' : Store A V} {ops : List (Op A V × A)} {op : Op A V} {a : A} :
      Run o ops o' → Step null zero o' op a o'' → Run o (ops ++ [(op, a)]) o''

/-! ## What a client knows -/

/-- The sizes of the live objects after an operation that was answered with `r`. -/
def sizes (live : A → Option ℕ) : Op A V → A → A → Option ℕ
  | .alloc n, r | .clear n, r => if r = null then live else Function.update live r (some n)
  | .resize a n, r =>
      if r = null then live else Function.update (Function.update live a none) r (some n)
  | .release a, _ => if a = null then live else Function.update live a none
  | .write _ _ _, _ => live

/-- The sizes of the live objects after a run. -/
def ledger (ops : List (Op A V × A)) : A → Option ℕ :=
  ops.foldl (fun live op => sizes null live op.1 op.2) fun _ => none

/-- What a client may do. -/
def Allowed (live : A → Option ℕ) : Op A V → Prop
  | .alloc _ | .clear _ => True
  | .resize a _ => live a ≠ none
  | .release a => a = null ∨ live a ≠ none
  | .write a i _ => ∃ n, live a = some n ∧ i < n

variable {null zero} {o o' : Store A V} {op : Op A V} {r a : A} {xs : List V}

@[simp] theorem ledger_nil : ledger null ([] : List (Op A V × A)) = fun _ => none := rfl

@[simp] theorem ledger_concat (ops : List (Op A V × A)) (op : Op A V) (r : A) :
    ledger null (ops ++ [(op, r)]) = sizes null (ledger null ops) op r := by
  simp [ledger]

/-- The sizes of the objects of a store. -/
def Store.lengths (o : Store A V) (a : A) : Option ℕ := (o a).map List.length

theorem lengths_update (o : Store A V) (a : A) (x : Option (List V)) :
    Store.lengths (Function.update o a x) =
      Function.update o.lengths a (x.map List.length) := by
  funext b
  by_cases hb : b = a
  · subst hb
    simp [Store.lengths]
  · simp [Store.lengths, hb]

omit [DecidableEq A] in
theorem ne_of_some {b : A} (ha : o a = some xs) (hb : o b = none) : b ≠ a := by
  rintro rfl
  rw [ha] at hb
  cases hb

theorem update_none {b : A} (hb : o b = none) : Function.update o a none b = none := by
  by_cases h : b = a
  · rw [h, Function.update_self]
  · rw [Function.update_of_ne h, hb]

/-- No object is at the address that means a refusal. -/
theorem Step.at_null (h : Step null zero o op r o') (h0 : o null = none) : o' null = none := by
  cases h with
  | refuse _ => exact h0
  | alloc ha _ _ => rwa [Function.update_of_ne ha.symm]
  | clear ha _ => rwa [Function.update_of_ne ha.symm]
  | refuseResize => exact h0
  | resize _ hb _ _ _ =>
      rw [Function.update_of_ne hb.symm]
      exact update_none h0
  | releaseNull => exact h0
  | release _ => exact update_none h0
  | write ho _ => rwa [Function.update_of_ne (ne_of_some ho h0)]

/-- The sizes after a step follow from the operation and its answer. -/
theorem Step.lengths (h : Step null zero o op r o') (h0 : o null = none) :
    o'.lengths = sizes null o.lengths op r := by
  cases h with
  | refuse ht =>
      cases op with
      | alloc n => simp [sizes]
      | clear n => simp [sizes]
      | resize a n => cases ht
      | release a => cases ht
      | write a i v => cases ht
  | alloc ha _ hl => simp [sizes, ha, lengths_update, hl]
  | clear ha _ => simp [sizes, ha, lengths_update]
  | refuseResize => simp [sizes]
  | resize ho hb _ hl _ => simp [sizes, hb, lengths_update, hl]
  | releaseNull => simp [sizes]
  | release ho => simp [sizes, (ne_of_some ho h0).symm, lengths_update]
  | write ho _ =>
      have hl := congrArg (Option.map List.length) ho
      rw [lengths_update, sizes, Option.map_some, List.length_set, ← Option.map_some, ← hl]
      exact Function.update_eq_self _ _

/-- **The ledger describes the store.** -/
theorem Run.ledger {ops : List (Op A V × A)} (h : Run null zero (fun _ => none) ops o) :
    o null = none ∧ o.lengths = ObjectStore.ledger null ops := by
  induction h with
  | nil => exact ⟨rfl, rfl⟩
  | snoc _ hstep ih =>
      obtain ⟨h0, hl⟩ := ih
      refine ⟨hstep.at_null h0, ?_⟩
      rw [hstep.lengths h0, hl, ledger_concat]

/-! ## Objects that no operation is about -/

/-- A step leaves the other objects as they are. -/
theorem Step.keeps (h : Step null zero o op r o') (ha : o a = some xs)
    (ht : op.target ≠ some a) : o' a = some xs := by
  have hother : ∀ {b : A}, op.target = some b → a ≠ b := by
    rintro b hb rfl
    exact ht hb
  cases h with
  | refuse _ => exact ha
  | alloc _ hb _ => rwa [Function.update_of_ne (ne_of_some ha hb).symm]
  | clear _ hb => rwa [Function.update_of_ne (ne_of_some ha hb).symm]
  | refuseResize => exact ha
  | resize _ _ hb _ _ =>
      have hab : a ≠ r := hb.elim (fun hc => hc ▸ hother rfl) fun hb => (ne_of_some ha hb).symm
      rwa [Function.update_of_ne hab, Function.update_of_ne (hother rfl)]
  | releaseNull => exact ha
  | release _ => rwa [Function.update_of_ne (hother rfl)]
  | write _ _ => rwa [Function.update_of_ne (hother rfl)]

/-- **A run leaves an object as it is, if no operation is about it.** -/
theorem Run.keeps {ops : List (Op A V × A)} (h : Run null zero o ops o') (ha : o a = some xs)
    (ht : ∀ op ∈ ops, op.1.target ≠ some a) : o' a = some xs := by
  induction h with
  | nil => exact ha
  | snoc _ hstep ih =>
      refine hstep.keeps (ih fun op hop => ht op (List.mem_append_left _ hop)) ?_
      exact ht _ (List.mem_append_right _ List.mem_cons_self)

end ObjectStore
