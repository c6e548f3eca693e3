import BootableKernel.Heap.Fuel
import BootableKernel.Lib.ObjectStore

/-!
# The heap over whole runs

A client calls `kmalloc`, `kcalloc`, `krealloc` and `kfree`, and writes to what it was given.
It keeps a ledger of its live objects, and the only pointers it frees, resizes or writes to
are in there. Whatever such a client does, in whatever order, the heap behaves as an object
store (`Lib/ObjectStore.lean`): `Shows` relates the records in memory to the objects, and
`exec_refines` is the step that every call makes.
-/

namespace BootableKernel

namespace Liballoc

open ObjectStore

variable {σ : Type} {K : Hooks σ} {P : Pager K}

/-! ## The objects in memory -/

/-- The bytes of an allocation. -/
def contents (m : Bytes) (c : Cell) : List (BitVec 8) :=
  (List.range c.req).map fun i => m.byte (c.ptr + i)

@[simp] theorem length_contents (m : Bytes) (c : Cell) : (contents m c).length = c.req := by
  simp [contents]

theorem getElem_contents (m : Bytes) (c : Cell) {i : ℕ} (h : i < (contents m c).length) :
    (contents m c)[i] = m.byte (c.ptr + i) := by
  simp [contents]

theorem contents_congr {m m' : Bytes} {c : Cell}
    (h : ∀ i < c.req, m'.byte (c.ptr + i) = m.byte (c.ptr + i)) : contents m' c = contents m c :=
  List.map_congr_left fun i hi => h i (List.mem_range.mp hi)

/-- The object at `p` contains `xs`. The cells among `own` belong to the page hooks. -/
def Object (own : Set ℕ) (m : Bytes) (Bs : List Block) (p : ℕ) (xs : List (BitVec 8)) : Prop :=
  ∃ c ∈ allCells Bs, c.ptr = p ∧ c.ptr ∉ own ∧ contents m c = xs

section
variable {own own' : Set ℕ} {m m' : Bytes} {Bs Bs' : List Block} {p q : ℕ} {xs : List (BitVec 8)}

theorem Undisturbed.object_iff (h : Undisturbed own own' m m' Bs Bs') :
    Object own m Bs p xs ↔ Object own' m' Bs' p xs := by
  constructor
  · rintro ⟨c, hc, rfl, ho, rfl⟩
    exact ⟨c, h.mem c hc ho, rfl, h.free c hc ho, contents_congr (h.bytes c hc ho)⟩
  · rintro ⟨c, hc', rfl, ho', rfl⟩
    obtain ⟨hc, ho⟩ := h.old c hc' ho'
    exact ⟨c, hc, rfl, ho, (contents_congr (h.bytes c hc ho)).symm⟩

theorem object_union : Object (own ∪ {q}) m Bs p xs ↔ p ≠ q ∧ Object own m Bs p xs := by
  constructor
  · rintro ⟨c, hc, rfl, ho, rfl⟩
    exact ⟨fun heq => ho (.inr heq), c, hc, rfl, fun hq => ho (.inl hq), rfl⟩
  · rintro ⟨hne, c, hc, rfl, ho, rfl⟩
    exact ⟨c, hc, rfl, fun hq => hq.elim ho hne, rfl⟩

end

/-- The heap shows the objects `o` to its clients, and keeps no empty block. -/
structure Shows (P : Pager K) (s : Heap σ) (Bs : List Block) (o : Store ℕ (BitVec 8)) : Prop where
  sound : Sound P s Bs
  full : Full Bs
  object : ∀ p xs, o p = some xs ↔ Object (P.own s.pager) s.mem Bs p xs

section
variable {s s' : Heap σ} {Bs Bs' : List Block} {o : Store ℕ (BitVec 8)} {p q : ℕ}

theorem Shows.cell (h : Shows P s Bs o) {xs : List (BitVec 8)} (hp : o p = some xs) :
    ∃ c ∈ allCells Bs, c.ptr = p ∧ c.ptr ∉ P.own s.pager ∧ contents s.mem c = xs :=
  (h.object p xs).mp hp

theorem Shows.absent (h : Shows P s Bs o)
    (hp : ∀ c ∈ allCells Bs, c.ptr ∉ P.own s.pager → c.ptr ≠ p) : o p = none := by
  cases ho : o p with
  | none => rfl
  | some xs =>
      obtain ⟨c, hc, rfl, hown, -⟩ := h.cell ho
      exact absurd rfl (hp c hc hown)

/-- An object is gone. -/
theorem Shows.remove (h : Shows P s Bs o) (hs : Sound P s' Bs') (hf : Full Bs → Full Bs')
    (hund : Undisturbed (P.own s.pager ∪ {p}) (P.own s'.pager) s.mem s'.mem Bs Bs') :
    Shows P s' Bs' (Function.update o p none) := by
  refine ⟨hs, hf h.full, fun x xs => ?_⟩
  rw [← hund.object_iff, object_union, ← h.object]
  by_cases hx : x = p
  · subst hx
    simp
  · simp [hx]

/-- The object at `p` is gone, and there is one at `q`. -/
theorem Shows.replace (h : Shows P s Bs o) (hs : Sound P s' Bs') (hf : Full Bs → Full Bs')
    (hund : Undisturbed (P.own s.pager ∪ {p}) (P.own s'.pager ∪ {q}) s.mem s'.mem Bs Bs') {c : Cell}
    (hc : c ∈ allCells Bs') (hptr : c.ptr = q) (hown : q ∉ P.own s'.pager) :
    Shows P s' Bs' (Function.update (Function.update o p none) q (some (contents s'.mem c))) := by
  have hother : ∀ x ≠ q, ∀ xs, Function.update o p none x = some xs ↔
      Object (P.own s'.pager) s'.mem Bs' x xs := by
    intro x hx xs
    have hiff : Object (P.own s.pager ∪ {p}) s.mem Bs x xs ↔
        Object (P.own s'.pager ∪ {q}) s'.mem Bs' x xs := hund.object_iff
    rw [object_union, object_union, ← h.object] at hiff
    by_cases hp : x = p
    · subst hp
      simpa [hx] using hiff
    · simpa [hx, hp] using hiff
  refine ⟨hs, hf h.full, fun x xs => ?_⟩
  by_cases hx : x = q
  · subst hx
    rw [Function.update_self, Option.some_inj]
    constructor
    · rintro rfl
      exact ⟨c, hc, hptr, hptr ▸ hown, rfl⟩
    · rintro ⟨d, hd, hdp, -, rfl⟩
      rw [hs.holds.eq_of_ptr_eq hc hd (hptr.trans hdp.symm)]
  · rw [Function.update_of_ne hx]
    exact hother x hx xs

/-- A request was refused. -/
theorem Shows.refused {size req : ℕ} (h : Shows P s Bs o)
    (ha : Allocated P s Bs size req 0 s' Bs') : Shows P s' Bs' o := by
  refine ⟨ha.sound, ha.full h.full, fun x xs => ?_⟩
  rw [h.object, ha.undisturbed.object_iff, object_union]
  constructor
  · exact fun hx => hx.2
  · rintro ⟨c, hc, rfl, hown, rfl⟩
    exact ⟨c.ptr_ne_zero, c, hc, rfl, hown, rfl⟩

/-- A request was served. -/
theorem Shows.served {size req : ℕ} (h : Shows P s Bs o)
    (ha : Allocated P s Bs size req p s' Bs') (hp : p ≠ 0) :
    o p = none ∧ ∃ c ∈ allCells Bs', c.ptr = p ∧ c.req = req ∧
      Shows P s' Bs' (Function.update o p (some (contents s'.mem c))) := by
  have hnone : o p = none :=
    h.absent fun c hc hown heq => ha.undisturbed.free c hc hown (.inr heq)
  obtain ⟨c, hc, hptr, -, hreq⟩ := ha.cell hp
  have hund := ha.undisturbed.union {p}
  rw [Set.union_assoc, Set.union_self] at hund
  have hshows := h.replace ha.sound ha.full hund hc hptr ha.owned
  rw [← hnone, Function.update_eq_self] at hshows
  exact ⟨hnone, c, hc, hptr, hreq, hshows⟩

end

/-! ## The calls -/

/-- A call of a client. With `poke` it writes the byte `i` of an object itself. -/
inductive Call
  | kmalloc (req : ℕ)
  | kcalloc (nobj size : ℕ)
  | krealloc (p size : ℕ)
  | kfree (p : ℕ)
  | poke (p i : ℕ) (v : BitVec 8)

/-- A call, and its answer. -/
def exec (K : Hooks σ) (fuel : ℕ) : Call → Heap σ → Option (ℕ × Heap σ)
  | .kmalloc req, s => kmalloc K fuel req s
  | .kcalloc nobj size, s => kcalloc K fuel nobj size s
  | .krealloc p size, s => krealloc K fuel p size s
  | .kfree p, s => some (0, kfree K p s)
  | .poke p i v, s => some (0, { s with mem := s.mem.store 1 (p + i) v.toNat })

namespace Call

/-- What a call is for. -/
def op : Call → Op ℕ (BitVec 8)
  | .kmalloc req => .alloc req
  | .kcalloc nobj size => .clear (nobj * size % 2 ^ 64)
  | .krealloc p size => if size = 0 then .release p else if p = 0 then .alloc size else .resize p size
  | .kfree p => .release p
  | .poke p i v => .write p i v

/-- The request is not too large for the 32-bit sizes. -/
def Fits : Call → Prop
  | .kmalloc req => req + 32 ≤ maxSize
  | .kcalloc nobj size => nobj * size % 2 ^ 64 + 32 ≤ maxSize
  | .krealloc _ size => size + 32 ≤ maxSize
  | .kfree _ | .poke _ _ _ => True

instance : DecidablePred Fits
  | .kmalloc _ | .kcalloc _ _ | .krealloc _ _ => Nat.decLe _ _
  | .kfree _ | .poke _ _ _ => isTrue trivial

end Call

theorem exec_extends {fuel fuel' : ℕ} (hle : fuel ≤ fuel') (call : Call) (s : Heap σ) :
    Extends (exec K fuel call s) (exec K fuel' call s) := by
  cases call with
  | kmalloc req => exact kmalloc_extends hle req s
  | kcalloc nobj size => exact kcalloc_extends hle nobj size s
  | krealloc p size => exact krealloc_extends hle p size s
  | kfree p => exact .refl _
  | poke p i v => exact .refl _

/-- A call with a result makes the step `op` of the store. -/
def Refines (P : Pager K) (o : Store ℕ (BitVec 8)) (op : Op ℕ (BitVec 8))
    (out : Option (ℕ × Heap σ)) : Prop :=
  ∃ r s' Bs' o', out = some (r, s') ∧ Step 0 0 o op r o' ∧ Shows P s' Bs' o'

theorem exists_of_lengths {o : Store ℕ (BitVec 8)} {p : ℕ} (h : o.lengths p ≠ none) :
    ∃ xs, o p = some xs := by
  refine Option.ne_none_iff_exists'.mp fun hc => h ?_
  rw [Store.lengths, hc]
  rfl

section
variable {s : Heap σ} {Bs : List Block} {o : Store ℕ (BitVec 8)} {fuel : ℕ}

theorem kmalloc_refines (h : Shows P s Bs o) {req : ℕ} (hreq : req + 32 ≤ maxSize)
    (hfuel : turns Bs ≤ fuel) : Refines P o (.alloc req) (kmalloc K fuel req s) := by
  obtain ⟨p, s', Bs', hout, halloc⟩ := kmalloc_answers hreq h.sound hfuel
  by_cases hp : p = 0
  · subst hp
    exact ⟨0, s', Bs', o, hout, .refuse rfl, h.refused halloc⟩
  · obtain ⟨hnone, c, -, -, hlen, hshows⟩ := h.served halloc hp
    exact ⟨p, s', Bs', _, hout, .alloc hp hnone ((length_contents _ _).trans hlen), hshows⟩

theorem kcalloc_refines (h : Shows P s Bs o) {nobj size : ℕ}
    (hreq : nobj * size % 2 ^ 64 + 32 ≤ maxSize) (hfuel : turns Bs ≤ fuel) :
    Refines P o (.clear (nobj * size % 2 ^ 64)) (kcalloc K fuel nobj size s) := by
  obtain ⟨p, s', Bs', hout, halloc, hzero⟩ := kcalloc_answers hreq h.sound hfuel
  by_cases hp : p = 0
  · subst hp
    exact ⟨0, s', Bs', o, hout, .refuse rfl, h.refused halloc⟩
  · obtain ⟨hnone, c, -, hptr, hlen, hshows⟩ := h.served halloc hp
    have hclear : contents s'.mem c = List.replicate (nobj * size % 2 ^ 64) 0 := by
      apply List.ext_getElem
      · rw [length_contents, hlen, List.length_replicate]
      · intro i hi hi'
        rw [getElem_contents, List.getElem_replicate, hptr]
        exact hzero hp i (by rwa [List.length_replicate] at hi')
    rw [hclear] at hshows
    exact ⟨p, s', Bs', _, hout, .clear hp hnone, hshows⟩

theorem kfree_refines (h : Shows P s Bs o) {p : ℕ} (hp : p = 0 ∨ o.lengths p ≠ none) :
    Refines P o (.release p) (some (0, kfree K p s)) := by
  by_cases h0 : p = 0
  · subst h0
    have hnull : kfree K 0 s = { s with warningCount := s.warningCount + 1 } := rfl
    refine ⟨0, _, Bs, o, rfl, .releaseNull, ?_⟩
    rw [hnull]
    exact ⟨⟨h.sound.holds.globals rfl rfl rfl rfl h.sound.holds.bet, h.sound.good, h.sound.own⟩,
      h.full, h.object⟩
  · obtain ⟨xs, hxs⟩ := exists_of_lengths (hp.resolve_left h0)
    obtain ⟨c, hc, rfl, hown, -⟩ := h.cell hxs
    obtain ⟨Bs', hsound, hund, hfull⟩ := kfree_spec h.sound hc hown
    exact ⟨0, _, Bs', _, rfl, .release hxs, h.remove hsound hfull hund⟩

theorem krealloc_refines (h : Shows P s Bs o) {p n : ℕ} (hn : n ≠ 0) (hmax : n + 32 ≤ maxSize)
    (hp : o.lengths p ≠ none) (hfuel : turns Bs ≤ fuel) :
    Refines P o (.resize p n) (krealloc K fuel p n s) := by
  obtain ⟨xs, hxs⟩ := exists_of_lengths hp
  obtain ⟨c, hc, rfl, hown, rfl⟩ := h.cell hxs
  obtain ⟨q, s', Bs', hout, ⟨rfl, halloc⟩ | ⟨hq, hres⟩⟩ :=
    krealloc_answers hn hmax h.sound hc hown hfuel
  · exact ⟨0, s', Bs', o, hout, .refuseResize, h.refused halloc⟩
  · obtain ⟨d, hd, hptr, hlen, hbytes⟩ := hres.cell
    refine ⟨q, s', Bs', _, hout, .resize hxs hq ?_ ?_ ?_,
      h.replace hres.sound hres.full hres.undisturbed hd hptr hres.owned⟩
    · exact hres.place.imp_right fun hfresh => h.absent hfresh
    · exact (length_contents _ _).trans hlen
    · rw [length_contents]
      apply List.ext_getElem
      · simp [hlen]
      · intro i hi hi'
        rw [List.getElem_take, List.getElem_take, getElem_contents, getElem_contents, hptr]
        rw [List.length_take] at hi
        exact hbytes i (lt_of_lt_of_le hi (Nat.min_le_left _ _))

theorem poke_refines (h : Shows P s Bs o) {p i : ℕ} (v : BitVec 8)
    (hp : ∃ n, o.lengths p = some n ∧ i < n) :
    Refines P o (.write p i v) (some (0, { s with mem := s.mem.store 1 (p + i) v.toNat })) := by
  obtain ⟨n, hn, hi⟩ := hp
  obtain ⟨xs, hxs⟩ := exists_of_lengths (o := o) (p := p) (by rw [hn]; exact Option.some_ne_none n)
  obtain ⟨c, hc, rfl, hown, rfl⟩ := h.cell hxs
  obtain rfl : c.req = n := by
    rw [Store.lengths, hxs, Option.map_some, length_contents] at hn
    exact Option.some_inj.mp hn
  have hbyte : ∀ x, (s.mem.store 1 (c.ptr + i) v.toNat).byte x =
      if x = c.ptr + i then v else s.mem.byte x := by
    intro x
    rw [Bytes.byte_store]
    by_cases hx : x = c.ptr + i
    · rw [if_pos (by omega), if_pos hx, hx, Nat.sub_self, Nat.pow_zero, Nat.div_one,
        BitVec.ofNat_toNat, BitVec.setWidth_eq]
    · rw [if_neg (by omega), if_neg hx]
  have hout : ∀ x, x < c.ptr ∨ c.ptr + c.req ≤ x →
      (s.mem.store 1 (c.ptr + i) v.toNat).byte x = s.mem.byte x := fun x hx => by
    rw [hbyte, if_neg (by omega)]
  have hset : contents (s.mem.store 1 (c.ptr + i) v.toNat) c = (contents s.mem c).set i v := by
    apply List.ext_getElem
    · rw [List.length_set, length_contents, length_contents]
    · intro j hj hj'
      rw [getElem_contents, hbyte, List.getElem_set, getElem_contents]
      by_cases hij : i = j
      · rw [if_pos hij, if_pos (by rw [hij])]
      · rw [if_neg hij, if_neg (by omega)]
  have hund : Undisturbed (P.own s.pager ∪ {c.ptr}) (P.own s.pager ∪ {c.ptr}) s.mem
      (s.mem.store 1 (c.ptr + i) v.toNat) Bs Bs := by
    refine ⟨fun d hd _ => hd, fun d _ ho => ho, fun d hd ho => ⟨hd, ho⟩, fun d hd ho j hj => ?_⟩
    exact h.sound.holds.byte_write hc hout hd (fun heq => ho (.inr heq)) hj
  have hshows := h.replace (h.sound.write hc hout) id hund hc rfl hown
  rw [Function.update_idem, hset] at hshows
  exact ⟨0, _, Bs, _, rfl, .write hxs (by rw [length_contents]; exact hi), hshows⟩

/-- **What a client is allowed to call makes the step it is for.** -/
theorem exec_refines (h : Shows P s Bs o) {call : Call} (hallowed : Allowed 0 o.lengths call.op)
    (hfits : call.Fits) (hfuel : turns Bs ≤ fuel) :
    Refines P o call.op (exec K fuel call s) := by
  cases call with
  | kmalloc req => exact kmalloc_refines h hfits hfuel
  | kcalloc nobj size => exact kcalloc_refines h hfits hfuel
  | krealloc p size =>
      rw [Call.op] at hallowed ⊢
      rw [exec]
      by_cases hsize : size = 0
      · rw [if_pos hsize] at hallowed ⊢
        rw [krealloc, if_pos hsize]
        exact kfree_refines h hallowed
      · rw [if_neg hsize] at hallowed ⊢
        by_cases hp : p = 0
        · rw [if_pos hp, krealloc, if_neg hsize, if_pos hp]
          exact kmalloc_refines h hfits hfuel
        · rw [if_neg hp] at hallowed ⊢
          exact krealloc_refines h hsize hfits hallowed hfuel
  | kfree p => exact kfree_refines h hallowed
  | poke p i v => exact poke_refines h v hallowed

end

/-! ## Runs -/

/-- The operations of some calls. -/
abbrev ops (calls : List (Call × ℕ)) : List (Op ℕ (BitVec 8) × ℕ) :=
  calls.map fun call => (call.1.op, call.2)

/-- A client's calls with their answers, from the state `s₀` on. -/
inductive Client (K : Hooks σ) (s₀ : Heap σ) : List (Call × ℕ) → Heap σ → Prop
  | start : Client K s₀ [] s₀
  | call {calls : List (Call × ℕ)} {s s' : Heap σ} {call : Call} {fuel r : ℕ} :
      Client K s₀ calls s → Allowed 0 (ledger 0 (ops calls)) call.op → call.Fits →
      exec K fuel call s = some (r, s') → Client K s₀ (calls ++ [(call, r)]) s'

/-- The heap after a call, or as it was if the bound on the turns is too small. -/
def after (K : Hooks σ) (fuel : ℕ) (call : Call) (s : Heap σ) : Heap σ :=
  ((exec K fuel call s).map Prod.snd).getD s

/-- A run goes on with a call that has an answer. -/
theorem Client.next {s₀ s : Heap σ} {calls : List (Call × ℕ)} {call : Call} {fuel r : ℕ}
    (h : Client K s₀ calls s) (hallowed : Allowed 0 (ledger 0 (ops calls)) call.op)
    (hfits : call.Fits) (hr : (exec K fuel call s).map Prod.fst = some r) :
    Client K s₀ (calls ++ [(call, r)]) (after K fuel call s) := by
  obtain ⟨⟨r, s'⟩, hexec, rfl⟩ := Option.map_eq_some_iff.mp hr
  have hafter : after K fuel call s = s' := by rw [after, hexec, Option.map_some, Option.getD_some]
  rw [hafter]
  exact h.call hallowed hfits hexec

/-- The heap before its first call. -/
structure Start (P : Pager K) (s : Heap σ) : Prop where
  root : s.memRoot = 0
  bet : s.bestBet = 0
  allocated : s.allocated = 0
  inuse : s.inuse = 0
  good : P.Good s.pager []
  own : P.own s.pager = ∅

theorem Start.shows {s : Heap σ} (h : Start P s) : Shows P s [] fun _ => none := by
  have hnone : ∀ {q : Block → Prop}, ∀ b ∈ ([] : List Block), q b := fun b hb =>
    absurd hb List.not_mem_nil
  refine ⟨⟨⟨List.Pairwise.nil, h.root, trivial, hnone, .inl h.bet, h.allocated, h.inuse⟩, h.good, ?_⟩,
    hnone, fun p xs => ?_⟩
  · rw [h.own]
    exact Set.empty_subset _
  · constructor
    · exact fun hp => nomatch hp
    · rintro ⟨c, hc, -⟩
      exact absurd hc List.not_mem_nil

section
variable {s₀ s s' : Heap σ} {calls more : List (Call × ℕ)} {Bs : List Block}
  {o : Store ℕ (BitVec 8)}

/-- The last call of a run. -/
theorem Client.last {call : Call} {r : ℕ} (h : Client K s₀ (calls ++ [(call, r)]) s') :
    ∃ s fuel, Client K s₀ calls s ∧ Allowed 0 (ledger 0 (ops calls)) call.op ∧ call.Fits ∧
      exec K fuel call s = some (r, s') := by
  generalize heq : calls ++ [(call, r)] = all at h
  cases h with
  | start => simp at heq
  | call hrun hallowed hfits hexec =>
      obtain ⟨rfl, hlast⟩ := List.append_inj' heq rfl
      simp only [List.cons.injEq, Prod.mk.injEq, and_true] at hlast
      obtain ⟨rfl, rfl⟩ := hlast
      exact ⟨_, _, hrun, hallowed, hfits, hexec⟩

/-- The calls and their answers determine the state. -/
theorem Client.eq (h : Client K s₀ calls s) (h' : Client K s₀ calls s') : s = s' := by
  induction h generalizing s' with
  | start =>
      generalize heq : ([] : List (Call × ℕ)) = all at h'
      cases h' with
      | start => rfl
      | call _ _ _ _ => simp at heq
  | @call calls t t' call fuel r _ _ _ hexec ih =>
      obtain ⟨u, fuel', hrun, -, -, hexec'⟩ := h'.last
      rw [← ih hrun] at hexec'
      have hmax := exec_extends (Nat.le_max_left fuel fuel') call t _ hexec
      have hmax' := exec_extends (Nat.le_max_right fuel fuel') call t _ hexec'
      rw [hmax] at hmax'
      exact (Prod.mk.inj (Option.some_inj.mp hmax')).2

/-- **The heap is an object store**, from any state of a run on. -/
theorem Client.refines (hc : Client K s₀ calls s) (h : Shows P s Bs o)
    (hl : o.lengths = ledger 0 (ops calls)) (h0 : o 0 = none)
    (hmore : Client K s₀ (calls ++ more) s') :
    ∃ Bs' o', Run 0 0 o (ops more) o' ∧ Shows P s' Bs' o' ∧
      o'.lengths = ledger 0 (ops (calls ++ more)) ∧ o' 0 = none := by
  induction more using List.reverseRecOn generalizing s' with
  | nil =>
      rw [List.append_nil] at hmore ⊢
      rw [← hc.eq hmore]
      exact ⟨Bs, o, .nil, h, hl, h0⟩
  | append_singleton more call ih =>
      obtain ⟨call, r⟩ := call
      rw [← List.append_assoc] at hmore ⊢
      obtain ⟨t, fuel, hrun, hallowed, hfits, hexec⟩ := hmore.last
      obtain ⟨Bs₁, o₁, hrun₁, h₁, hl₁, h0₁⟩ := ih hrun
      rw [← hl₁] at hallowed
      obtain ⟨r', t', Bs₂, o₂, hexec', hstep, h₂⟩ :=
        exec_refines h₁ hallowed hfits (Nat.le_max_left (turns Bs₁) fuel)
      have hmax := exec_extends (Nat.le_max_right (turns Bs₁) fuel) call t _ hexec
      rw [hmax] at hexec'
      obtain ⟨rfl, rfl⟩ := Prod.mk.inj (Option.some_inj.mp hexec')
      refine ⟨Bs₂, o₂, ?_, h₂, ?_, hstep.at_null h0₁⟩
      · rw [ops, List.map_append]
        exact .snoc hrun₁ hstep
      · rw [hstep.lengths h0₁, hl₁, ← ledger_concat]
        simp only [ops, List.map_append, List.map_cons, List.map_nil]

/-- Every state of a run shows the objects of its ledger. -/
theorem Client.shows (hs : Start P s₀) (hc : Client K s₀ calls s) :
    ∃ (Bs : List Block) (o : Store ℕ (BitVec 8)), Run 0 0 (fun _ => none) (ops calls) o ∧
      Shows P s Bs o ∧ o.lengths = ledger 0 (ops calls) := by
  obtain ⟨Bs, o, hrun, hshows, hl, -⟩ :=
    Client.refines .start hs.shows rfl rfl ((List.nil_append calls).symm ▸ hc)
  exact ⟨Bs, o, hrun, hshows, hl⟩

end

end Liballoc

end BootableKernel
