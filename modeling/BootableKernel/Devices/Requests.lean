import BootableKernel.Devices.Service

/-!
# What becomes of a request

A step neither invents nor loses a request. `Step.owed` counts: what a line has to its credit
is a request that its controller remembers, or a handler that was entered and has not yet
announced the end of the service. `Step.waits` says that a request stays until it is taken back
or its handler runs, and `round` that the machine can always go on serving.
-/

namespace BootableKernel
namespace Interrupts

open Pic Descriptors

variable {stubs : Stubs} {m m' : Machine} {e : Event}

/-! ## Counting -/

def Event.handles : Event → Option (Fin 16)
  | .sendEoi n _ => some n
  | _ => none

/-- How often the handler `n` was run. -/
def handled (n : Fin 16) (trace : List Event) : ℕ := trace.countP fun e => e.handles = some n

/-- How many requests were made on the line `n`. -/
def requests (n : Fin 16) (trace : List Event) : ℕ := trace.count (.request n)

/-- Whether the processor is at the stub `n`. -/
def Machine.entering (stubs : Stubs) (n : Fin 16) (m : Machine) : Bool :=
  m.frames.any fun f => decide (f.stage = .entered) && decide (f.address = stubs.irq n)

/-- What a line still has to its credit: a request, or a handler that was only entered. -/
def Machine.owed (stubs : Stubs) (n : Fin 16) (m : Machine) : ℕ :=
  (m.entering stubs n).toNat + (m.controllers.isRequested n).toNat

theorem entering_nil (n : Fin 16) (hf : m.frames = []) : m.entering stubs n = false := by
  rw [Machine.entering, hf, List.any_nil]

theorem entering_of_stage {f : Frame} (n : Fin 16) (hf : m.frames = [f]) (h : f.stage ≠ .entered) :
    m.entering stubs n = false := by
  simp [Machine.entering, hf, h]

theorem entering_entered (hs : Placed stubs) (n k : Fin 16)
    (hf : m.frames = [⟨stubs.irq k, .entered, true⟩]) : m.entering stubs n = decide (k = n) := by
  simp [Machine.entering, hf, hs.injective.eq_iff]

theorem sendEoi_entering (hp : Phase stubs m) (k : Fin 16) (scancode : BitVec 8) (n : Fin 16) :
    (m.sendEoi k scancode).entering stubs n = false := by
  cases hp with
  | waiting hf => simp [Machine.entering, Machine.sendEoi, Machine.setStage, hf]
  | entered j hf => simp [Machine.entering, Machine.sendEoi, Machine.setStage, hf]
  | served j stage hstage hf => simp [Machine.entering, Machine.sendEoi, Machine.setStage, hf]

/-- The work of a handler leaves the requests alone. -/
theorem work_requested (n : Fin 16) (scancode : BitVec 8) (m : Machine) :
    (m.work n scancode).controllers.master.requested = m.controllers.master.requested ∧
      (m.work n scancode).controllers.slave.requested = m.controllers.slave.requested := by
  simp only [Machine.work, Machine.setStage]
  split
  · exact ⟨rfl, rfl⟩
  · split <;> exact ⟨rfl, rfl⟩

@[simp] theorem work_isRequested (k : Fin 16) (scancode : BitVec 8) (m : Machine) (n : Fin 16) :
    (m.work k scancode).controllers.isRequested n = m.controllers.isRequested n := by
  obtain ⟨hmaster, hslave⟩ := work_requested k scancode m
  simp only [Controllers.isRequested, hmaster, hslave]

theorem work_entering (hp : Phase stubs m) (k : Fin 16) (scancode : BitVec 8) (n : Fin 16) :
    (m.work k scancode).entering stubs n = false := by
  cases hp with
  | waiting hf => simp [Machine.entering, work_frames, hf]
  | entered j hf => simp [Machine.entering, work_frames, hf]
  | served j stage hstage hf => simp [Machine.entering, work_frames, hf]

theorem iret_entering (hp : Phase stubs m) (n : Fin 16) : m.iret.entering stubs n = false := by
  cases hp with
  | waiting hf => simp [Machine.entering, Machine.iret, hf]
  | entered j hf => simp [Machine.entering, Machine.iret, hf]
  | served j stage hstage hf => simp [Machine.entering, Machine.iret, hf]

/-- A step neither loses nor invents a request. Line 2 has the requests of the slave, and lines
7 and 15 are also taken for requests that are gone. -/
theorem Step.owed (hs : Placed stubs) (hc : Configured stubs m) (hp : Phase stubs m)
    (h : Step stubs e m m') {n : Fin 16} (h2 : n ≠ masterLine 2) (h7 : n ≠ masterLine 7)
    (h15 : n ≠ slaveLine 7) :
    (if e.handles = some n then 1 else 0) + m'.owed stubs n ≤
      m.owed stubs n + if e = .request n then 1 else 0 := by
  cases h with
  | @request _ k hn =>
      have hent : Machine.entering stubs n { m with controllers := m.controllers.request k } =
        m.entering stubs n := rfl
      by_cases hk : n = k
      · subst hk
        simp [Machine.owed, hent, Event.handles]
      · simp [Machine.owed, hent, Event.handles, hk]
  | withdraw k =>
      have hent : Machine.entering stubs n { m with controllers := m.controllers.withdraw k } =
        m.entering stubs n := rfl
      by_cases hk : n = k
      · subst hk
        simp [Machine.owed, hent, Event.handles]
      · simp [Machine.owed, hent, Event.handles, hk]
  | cascade h =>
      have hent : Machine.entering stubs n
          { m with controllers := m.controllers.request (masterLine 2) } = m.entering stubs n := rfl
      simp [Machine.owed, hent, Event.handles, h2]
  | setFlag b h => simp [Machine.owed, Event.handles, Machine.entering]
  | interrupt h =>
      obtain ⟨hf, hidle⟩ := hp.frames_of_flag h
      obtain ⟨k, htaken, hframes, -⟩ := enter_spec hs hc hf h hidle
      have hreq := htaken.requested h7 h15
      simp only [Machine.owed, Event.handles, entering_nil n hf, entering_entered hs n k hframes]
      by_cases hk : k = n
      · simp only [hk, if_true] at hreq
        simpa [hk] using hreq
      · simp only [hk, if_false] at hreq
        simpa [hk] using hreq
  | @sendEoi _ k scancode f fs hf hstage hk =>
      have hreq : (m.sendEoi k scancode).controllers.isRequested n =
          m.controllers.isRequested n :=
        Controllers.isRequested_picSendEoi n _ _
      have hout := sendEoi_entering hp k scancode n
      have hent := entering_entered hs n k (hp.at_stub hs hf hstage hk).1
      simp only [Machine.owed, hout, hent, hreq, Event.handles, Option.some.injEq]
      by_cases hn : k = n <;> simp [hn]
  | @work _ k scancode f fs hf hstage =>
      have hreq := work_isRequested k scancode m n
      have hout := work_entering hp k scancode n
      simp [Machine.owed, hout, hreq, Event.handles]
  | @iret _ f fs hf hstage =>
      have hout := iret_entering hp n
      have hreq : m.iret.controllers.isRequested n = m.controllers.isRequested n := rfl
      simp [Machine.owed, hout, hreq, Event.handles]

def Event.works : Event → Option (Fin 16)
  | .work n _ => some n
  | _ => none

/-- How often the handler `n` did its work. -/
def worked (n : Fin 16) (trace : List Event) : ℕ := trace.countP fun e => e.works = some n

def Stage.handler : Stage → Option (Fin 16)
  | .acknowledged n _ => some n
  | _ => none

/-- Whether the handler `n` has its work before it. -/
def Machine.working (n : Fin 16) (m : Machine) : Bool :=
  m.frames.any fun f => decide (f.stage.handler = some n)

theorem Step.working (hs : Placed stubs) (hp : Phase stubs m) (h : Step stubs e m m') (n : Fin 16) :
    (if e.works = some n then 1 else 0) + (m'.working n).toNat ≤
      (m.working n).toNat + if e.handles = some n then 1 else 0 := by
  cases h with
  | request hn => simp [Machine.working, Event.works, Event.handles]
  | withdraw k => simp [Machine.working, Event.works, Event.handles]
  | cascade h => simp [Machine.working, Event.works, Event.handles]
  | setFlag b h => simp [Machine.working, Event.works, Event.handles]
  | interrupt h => simp [Machine.working, Event.works, Event.handles, Machine.enter, Stage.handler]
  | @sendEoi _ k scancode f fs hf hstage hk =>
      by_cases hn : k = n <;>
        simp [Machine.working, Event.works, Event.handles, Machine.sendEoi, Machine.setStage,
          (hp.at_stub hs hf hstage hk).1, Stage.handler, hn]
  | @work _ k scancode f fs hf hstage =>
      obtain ⟨j, hframes, -⟩ := hp.behind_stub hf (hstage ▸ fun h => by cases h)
      have hout : (m.work k scancode).working n = false := by
        simp [Machine.working, work_frames, hframes, Stage.handler]
      have hin : m.working n = decide (k = n) := by
        simp [Machine.working, hframes, Stage.handler, hstage]
      by_cases hn : k = n
      · subst hn
        simp [hout, hin, Event.works, Event.handles]
      · simp [hout, hin, Event.works, Event.handles, hn]
  | @iret _ f fs hf hstage =>
      obtain ⟨j, hframes, -⟩ := hp.behind_stub hf (hstage ▸ fun h => by cases h)
      simp [Machine.working, Event.works, Event.handles, Machine.iret, hframes]

/-- The clock counts the work of its handler. -/
theorem Step.clock (h : Step stubs e m m') :
    m'.clock = m.clock + BitVec.ofNat 64 (if e.works = some 0 then 1 else 0) := by
  cases h with
  | @work _ k scancode =>
      by_cases h0 : k = 0
      · simp [Machine.work, Machine.setStage, Event.works, h0]
      · simp only [Machine.work, Machine.setStage, Event.works, h0, if_false, Option.some.injEq]
        split <;> simp
  | _ => simp [Event.works, Machine.enter, Machine.sendEoi, Machine.setStage, Machine.iret]

/-! ## Progress -/

/-- Whether a request on the line `n` still waits for its handler. -/
def Machine.Waits (stubs : Stubs) (n : Fin 16) (m : Machine) : Prop :=
  m.controllers.isRequested n ∨ m.entering stubs n

/-- A request waits until it is taken back, or its handler runs. -/
theorem Step.waits (hs : Placed stubs) (hc : Configured stubs m) (hp : Phase stubs m)
    (h : Step stubs e m m') {n : Fin 16} (h2 : n ≠ masterLine 2) (he : e ≠ .withdraw n)
    (hw : m.Waits stubs n) : m'.Waits stubs n ∨ e.handles = some n := by
  cases h with
  | request hn =>
      left
      refine hw.imp (fun hreq => ?_) id
      rw [Controllers.isRequested_request, hreq, Bool.or_true]
  | withdraw k =>
      left
      have hk : n ≠ k := fun hk => he (hk ▸ rfl)
      refine hw.imp (fun hreq => ?_) id
      rw [Controllers.isRequested_withdraw, hreq, decide_eq_false hk]
      rfl
  | cascade h =>
      left
      refine hw.imp (fun hreq => ?_) id
      rw [Controllers.isRequested_request, hreq, Bool.or_true]
  | setFlag b h => exact Or.inl hw
  | interrupt h =>
      obtain ⟨hf, hidle⟩ := hp.frames_of_flag h
      obtain ⟨k, htaken, hframes, -⟩ := enter_spec hs hc hf h hidle
      have hreq : m.controllers.isRequested n := by
        refine hw.resolve_right fun hent => ?_
        rw [entering_nil n hf] at hent
        cases hent
      left
      refine (htaken.kept h2 hreq).imp id fun hk => ?_
      rw [entering_entered hs n k hframes, decide_eq_true hk]
  | @sendEoi _ k scancode f fs hf hstage hk =>
      have hreq : (m.sendEoi k scancode).controllers.isRequested n =
          m.controllers.isRequested n :=
        Controllers.isRequested_picSendEoi n _ _
      rcases hw with hw | hw
      · exact Or.inl (Or.inl (hreq.trans hw))
      · right
        rw [entering_entered hs n k (hp.at_stub hs hf hstage hk).1, decide_eq_true_eq] at hw
        rw [Event.handles, hw]
  | @work _ k scancode f fs hf hstage =>
      have hne : f.stage ≠ .entered := hstage ▸ fun h => by cases h
      obtain ⟨j, hframes, -⟩ := hp.behind_stub hf hne
      have hout : m.entering stubs n = false := entering_of_stage n hframes hne
      rw [Machine.Waits, hout] at hw
      left
      left
      rw [work_isRequested]
      exact hw.resolve_right Bool.false_ne_true
  | @iret _ f fs hf hstage =>
      have hne : f.stage ≠ .entered := hstage ▸ fun h => by cases h
      obtain ⟨j, hframes, -⟩ := hp.behind_stub hf hne
      have hout : m.entering stubs n = false := entering_of_stage n hframes hne
      rw [Machine.Waits, hout] at hw
      exact Or.inl (Or.inl (hw.resolve_right Bool.false_ne_true))

/-- From a machine without a handler in progress, one round of service. -/
theorem round (hs : Placed stubs) (hc : Configured stubs m) (hp : Phase stubs m)
    (hflag : m.interruptFlag = true) (scancode : BitVec 8) :
    ∃ n c' m', Run stubs m [.interrupt, .sendEoi n scancode, .work n scancode, .iret] m' ∧
      Controllers.Taken m.controllers n c' ∧ m'.interruptFlag = true ∧
      m'.controllers.master.requested = c'.master.requested ∧
      m'.controllers.slave.requested = c'.slave.requested := by
  obtain ⟨hf, hidle⟩ := hp.frames_of_flag hflag
  obtain ⟨n, htaken, hframes, -⟩ := enter_spec hs hc hf hflag hidle
  have hack : ((m.enter).sendEoi n scancode).frames =
      [⟨stubs.irq n, .acknowledged n scancode, true⟩] := by
    rw [Machine.sendEoi, Keyboard.inb_atPort, Machine.setStage]
    dsimp only
    rw [hframes]
    rfl
  have hreturn : (((m.enter).sendEoi n scancode).work n scancode).frames =
      [⟨stubs.irq n, .returning, true⟩] := by
    rw [work_frames, hack]
    rfl
  obtain ⟨hmaster, hslave⟩ := Controllers.picSendEoi_requested (BitVec.ofNat 32 n)
    { m.enter.controllers with ports := (Keyboard.atPort m.enter.keyboard scancode).ports }
  obtain ⟨hmaster', hslave'⟩ := work_requested n scancode ((m.enter).sendEoi n scancode)
  have hrun : Run stubs m [.interrupt, .sendEoi n scancode, .work n scancode, .iret]
      (((m.enter).sendEoi n scancode).work n scancode).iret :=
    (((Run.start.next (.interrupt hflag)).next (.sendEoi scancode hframes rfl rfl)).next
      (.work hack rfl)).next (.iret hreturn rfl)
  refine ⟨n, _, _, hrun, htaken, ?_, hmaster'.trans hmaster, hslave'.trans hslave⟩
  rw [Machine.iret, hreturn]
  rfl

/-- The events of a machine that is left alone by its devices. -/
def Event.internal : Event → Bool
  | .request _ | .withdraw _ | .setFlag _ => false
  | _ => true

/-- The machine can serve every request that is not masked, if its devices leave it alone. -/
def Drains (stubs : Stubs) (m : Machine) : Prop :=
  ∃ more m', Run stubs m more m' ∧ (∀ e ∈ more, e.internal) ∧ m'.interruptFlag = true ∧
    m'.controllers.Served

theorem Drains.of_run (h : Drains stubs m') {trace : List Event} (hrun : Run stubs m trace m')
    (hint : ∀ e ∈ trace, e.internal) : Drains stubs m := by
  obtain ⟨more, m'', hmore, hint', hdone⟩ := h
  exact ⟨trace ++ more, m'', hrun.append hmore,
    fun e he => (List.mem_append.mp he).elim (hint e) (hint' e), hdone⟩

end Interrupts
end BootableKernel
