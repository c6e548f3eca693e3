import BootableKernel.Devices.Requests

/-!
# What the devices rely on

The results on runs from boot on, whatever the order of requests, acknowledgements and
handlers. They need the linker to place the stubs where the gates can lead to them.
-/

namespace BootableKernel
namespace Interrupts

open Pic Descriptors

variable {stubs : Stubs} {m m' : Machine} {e : Event}

/-- The changes of the clock's mask in a run. -/
def clockCalls (trace : List Event) : List Pic.Call := trace.flatMap Event.maskCalls

@[simp] theorem lastCall_append (calls more : List Pic.Call) (i : Fin 16) :
    lastCall (calls ++ more) i = (lastCall more i).or (lastCall calls i) := by
  rw [lastCall, List.reverse_append, List.find?_append, Option.map_or]
  rfl

theorem clockCall_line {character : BitVec 8} {c : Pic.Call} (h : c ∈ clockCall character) :
    c.line = 0 := by
  rw [clockCall] at h
  split at h
  · rw [List.mem_singleton.mp h]
    rfl
  · split at h
    · rw [List.mem_singleton.mp h]
      rfl
    · cases h

theorem maskCalls_line {c : Pic.Call} (h : c ∈ e.maskCalls) : c.line = 0 := by
  unfold Event.maskCalls at h
  split at h
  · split at h
    · exact clockCall_line h
    · cases h
  · cases h

/-- Only the mask of the clock is changed. -/
theorem lastCall_clockCalls (trace : List Event) {i : Fin 16} (hi : i ≠ 0) :
    lastCall (clockCalls trace) i = none := by
  rw [lastCall, Option.map_eq_none_iff, List.find?_eq_none]
  intro c hc
  obtain ⟨e, -, he⟩ := List.mem_flatMap.mp (List.mem_reverse.mp hc)
  simpa [maskCalls_line he] using hi.symm

@[simp] theorem handled_concat (n : Fin 16) (trace : List Event) (e : Event) :
    handled n (trace ++ [e]) = handled n trace + if e.handles = some n then 1 else 0 := by
  simp [handled, List.countP_append, List.countP_singleton]

@[simp] theorem worked_concat (n : Fin 16) (trace : List Event) (e : Event) :
    worked n (trace ++ [e]) = worked n trace + if e.works = some n then 1 else 0 := by
  simp [worked, List.countP_append, List.countP_singleton]

/-- The stub of line 2 is not entered. -/
theorem Step.entering_two (hs : Placed stubs) (hc : Configured stubs m) (hp : Phase stubs m)
    (h : Step stubs e m m') (hm : m.entering stubs (masterLine 2) = false) :
    m'.entering stubs (masterLine 2) = false := by
  cases h with
  | request hn => exact hm
  | withdraw k => exact hm
  | cascade h => exact hm
  | setFlag b h => exact hm
  | interrupt h =>
      obtain ⟨hf, hidle⟩ := hp.frames_of_flag h
      obtain ⟨k, htaken, hframes, -⟩ := enter_spec hs hc hf h hidle
      rw [entering_entered hs _ k hframes]
      exact decide_eq_false htaken.ne_two
  | @sendEoi _ k scancode f fs hf hstage hk =>
      exact sendEoi_entering hp k scancode (masterLine 2)
  | @work _ k scancode f fs hf hstage => exact work_entering hp k scancode (masterLine 2)
  | @iret _ f fs hf hstage => exact iret_entering hp (masterLine 2)

/-- The handler of line 2 does not run if its stub was not entered. -/
theorem Step.handles_ne_two (h : Step stubs e m m')
    (hm : m.entering stubs (masterLine 2) = false) : e.handles ≠ some (masterLine 2) := by
  cases h with
  | @sendEoi _ k scancode f fs hf hstage hk =>
      intro heq
      obtain rfl : k = masterLine 2 := Option.some_inj.mp heq
      simp [Machine.entering, hf, hstage, hk] at hm
  | _ => exact fun heq => by cases heq

section Boot

variable {idtAddress : BitVec 64} {s : Ports} {trace : List Event}

theorem Run.masked (h : Run stubs (boot stubs idtAddress s) trace m) (i : Fin 16) :
    Pic.masked m.controllers.ports i =
      (lastCall (clockCalls trace) i).getD
        (Pic.masked (boot stubs idtAddress s).controllers.ports i) := by
  induction h with
  | start => rfl
  | @next trace e m m' h hstep ih =>
      have hc := h.configured
      have hready : Ready m.controllers.ports := ⟨hc.ports.master.stage, hc.ports.slave.stage⟩
      have hcalls : clockCalls (trace ++ [e]) = clockCalls trace ++ e.maskCalls := by
        simp [clockCalls]
      rw [(hstep.chips hc).masked, (runAll_spec hready e.maskCalls).2 i, ih, hcalls,
        lastCall_append]
      cases lastCall e.maskCalls i <;> rfl

theorem masked_boot (i : Fin 16) :
    Pic.masked (boot stubs idtAddress s).controllers.ports i =
      if i = 0 then true else Pic.masked s i := by
  have hcalls := (picRemap_masks 0x20 0x28 s [.setMask 0]).2.2 i
  have hports : (boot stubs idtAddress s).controllers.ports =
      runAll [.setMask 0] (picRemap 0x20 0x28 s) := rfl
  rw [hports, hcalls]
  by_cases hi : i = 0
  · subst hi
    rfl
  · have hnone : lastCall [.setMask 0] i = none := by
      simp [lastCall, Pic.Call.line, Ne.symm hi]
    rw [hnone, if_neg hi]
    rfl

/-- Every event of a run is counted. -/
theorem Run.owed (hs : Placed stubs) (h : Run stubs (boot stubs idtAddress s) trace m) {n : Fin 16}
    (h2 : n ≠ masterLine 2) (h7 : n ≠ masterLine 7) (h15 : n ≠ slaveLine 7) :
    handled n trace + m.owed stubs n ≤ requests n trace := by
  induction h with
  | start =>
      have hreq : (boot stubs idtAddress s).controllers.isRequested n = false := by
        simp [Controllers.isRequested, boot]
      have hent : (boot stubs idtAddress s).entering stubs n = false := rfl
      simp [handled, requests, Machine.owed, hent, hreq]
  | @next trace e m m' h hstep ih =>
      have hstep' := hstep.owed hs h.configured (h.phase hs) h2 h7 h15
      have hrequests : requests n (trace ++ [e]) =
          requests n trace + if e = .request n then 1 else 0 := by
        simp [requests, List.count_append, List.count_singleton]
      rw [handled_concat, hrequests]
      omega

theorem Run.working (hs : Placed stubs) (h : Run stubs (boot stubs idtAddress s) trace m)
    (n : Fin 16) : worked n trace + (m.working n).toNat ≤ handled n trace := by
  induction h with
  | start =>
      have hwork : (boot stubs idtAddress s).working n = false := rfl
      simp [worked, handled, hwork]
  | @next trace e m m' h hstep ih =>
      have hstep' := hstep.working hs (h.phase hs) n
      rw [handled_concat, worked_concat]
      omega

theorem Run.clock (h : Run stubs (boot stubs idtAddress s) trace m) :
    m.clock = BitVec.ofNat 64 (worked 0 trace) := by
  induction h with
  | start => rfl
  | @next trace e m m' h hstep ih =>
      rw [hstep.clock, ih, worked_concat, BitVec.ofNat_add]

/-- The handler of line 2 is never entered. -/
theorem Run.entering_two (hs : Placed stubs) (h : Run stubs (boot stubs idtAddress s) trace m) :
    m.entering stubs (masterLine 2) = false := by
  induction h with
  | start => rfl
  | @next trace e m m' h hstep ih => exact hstep.entering_two hs h.configured (h.phase hs) ih

theorem Run.handled_two (hs : Placed stubs) (h : Run stubs (boot stubs idtAddress s) trace m) :
    handled (masterLine 2) trace = 0 := by
  induction h with
  | start => rfl
  | @next trace e m m' h hstep ih =>
      have hne : e.handles ≠ some (masterLine 2) :=
        hstep.handles_ne_two (h.entering_two hs)
      rw [handled_concat, ih, if_neg hne]

/-- **Nothing stays in service.** Handlers are never nested, and while none is before its
`PIC_send_EOI` no line is in service, so each controller signals as soon as it has a request
that is not masked. -/
theorem run_unnested (hs : Placed stubs) (h : Run stubs (boot stubs idtAddress s) trace m) :
    m.frames.length ≤ 1 ∧ (m.frames ≠ [] → m.interruptFlag = false) ∧
      ((∀ f ∈ m.frames, f.stage ≠ .entered) → m.controllers.Idle ∧
        (m.controllers.masterSignal = none ↔ m.controllers.masterPending = ∅) ∧
        (m.controllers.slaveSignal = none ↔ m.controllers.slavePending = ∅)) := by
  have hsignal : m.controllers.Idle →
      (m.controllers.masterSignal = none ↔ m.controllers.masterPending = ∅) ∧
        (m.controllers.slaveSignal = none ↔ m.controllers.slavePending = ∅) := fun hidle =>
    ⟨Controllers.signal_eq_none_iff_empty hidle.master,
      Controllers.signal_eq_none_iff_empty hidle.slave⟩
  cases h.phase hs with
  | waiting hf hidle =>
      rw [hf]
      exact ⟨Nat.zero_le 1, fun h => absurd rfl h, fun _ => ⟨hidle, hsignal hidle⟩⟩
  | entered n hf hflag hserving =>
      rw [hf]
      exact ⟨le_rfl, fun _ => hflag, fun h => absurd rfl (h _ (List.mem_singleton_self _))⟩
  | served n stage hstage hf hflag hidle =>
      rw [hf]
      exact ⟨le_rfl, fun _ => hflag, fun _ => ⟨hidle, hsignal hidle⟩⟩

theorem run_unnested_clock :
    sampleClock.frames.length ≤ 1 ∧ (sampleClock.frames ≠ [] → sampleClock.interruptFlag = false) ∧
      ((∀ f ∈ sampleClock.frames, f.stage ≠ .entered) → sampleClock.controllers.Idle ∧
        (sampleClock.controllers.masterSignal = none ↔
          sampleClock.controllers.masterPending = ∅) ∧
        (sampleClock.controllers.slaveSignal = none ↔
          sampleClock.controllers.slavePending = ∅)) :=
  run_unnested sampleStubs_placed sampleClock_run

/-- **The right handler.** The processor takes the line that comes first, and the only handler
that can run then is the one of that line. -/
theorem run_leads (hs : Placed stubs) (h : Run stubs (boot stubs idtAddress s) trace m)
    (hstep : Step stubs .interrupt m m') :
    ∃ n, Controllers.Taken m.controllers n m'.controllers ∧
      m'.frames = [⟨stubs.irq n, .entered, true⟩] ∧
      ∀ k scancode m'', Step stubs (.sendEoi k scancode) m' m'' → k = n := by
  cases hstep with
  | interrupt hflag =>
      obtain ⟨hf, hidle⟩ := (h.phase hs).frames_of_flag hflag
      obtain ⟨n, htaken, hframes, -⟩ := enter_spec hs h.configured hf hflag hidle
      refine ⟨n, htaken, hframes, fun k scancode m'' hstep => ?_⟩
      cases hstep with
      | sendEoi _ hf' hstage hk =>
          rw [hframes] at hf'
          cases hf'
          exact (hs.injective hk).symm

theorem run_leads_clock :
    ∃ n, Controllers.Taken sampleClock.controllers n sampleClock.enter.controllers ∧
      sampleClock.enter.frames = [⟨sampleStubs.irq n, .entered, true⟩] ∧
      ∀ k scancode m'', Step sampleStubs (.sendEoi k scancode) sampleClock.enter m'' → k = n :=
  run_leads sampleStubs_placed sampleClock_run (.interrupt rfl)

/-- **The clock's mask.** In every run the keys `1` and `2` decide whether the clock is masked,
the last one that was pressed, and it starts masked. All other masks are those from before
`PIC_remap`. The handler of the clock is entered only while it is not masked. -/
theorem run_masked (hs : Placed stubs) (h : Run stubs (boot stubs idtAddress s) trace m) :
    (∀ i, Pic.masked m.controllers.ports i =
      if i = 0 then (lastCall (clockCalls trace) 0).getD true else Pic.masked s i) ∧
    ∀ m', Step stubs .interrupt m m' → ∀ f ∈ m'.frames, f.address = stubs.irq 0 →
      lastCall (clockCalls trace) 0 = some false := by
  have hmasked : ∀ i, Pic.masked m.controllers.ports i =
      if i = 0 then (lastCall (clockCalls trace) 0).getD true else Pic.masked s i := by
    intro i
    rw [h.masked, masked_boot]
    by_cases hi : i = 0
    · subst hi
      rfl
    · rw [lastCall_clockCalls trace hi, if_neg hi, if_neg hi]
      rfl
  refine ⟨hmasked, fun m' hstep f hf haddress => ?_⟩
  cases hstep with
  | interrupt hflag =>
      obtain ⟨hnil, hidle⟩ := (h.phase hs).frames_of_flag hflag
      obtain ⟨n, htaken, hframes, -⟩ := enter_spec hs h.configured hnil hflag hidle
      rw [hframes, List.mem_singleton] at hf
      subst hf
      obtain rfl : n = 0 := hs.injective haddress
      have hzero := hmasked 0
      rw [htaken.masked_zero, if_pos rfl] at hzero
      cases hlast : lastCall (clockCalls trace) 0 with
      | none => rw [hlast] at hzero; cases hzero
      | some b => rw [hlast] at hzero; rw [show b = false from hzero.symm]

/-- After the key `1` only the clock's mask has changed, and the clock is taken. -/
theorem run_masked_clock :
    (∀ i, Pic.masked sampleClock.controllers.ports i =
      if i = 0 then (lastCall (clockCalls sampleTrace) 0).getD true else Pic.masked samplePorts i) ∧
    lastCall (clockCalls sampleTrace) 0 = some false := by
  obtain ⟨hmasked, hentered⟩ := run_masked sampleStubs_placed sampleClock_run
  refine ⟨hmasked, hentered sampleClock.enter (.interrupt rfl) _ List.mem_cons_self ?_⟩
  decide +kernel

/-- **No handler runs without a request.** Lines 7 and 15 are excepted, which also stand for
requests that are gone; the handler of line 2 never runs. The clock counts the runs of its
handler. -/
theorem run_counts (hs : Placed stubs) (h : Run stubs (boot stubs idtAddress s) trace m) :
    (∀ n, n ≠ masterLine 7 → n ≠ slaveLine 7 → handled n trace ≤ requests n trace) ∧
      handled (masterLine 2) trace = 0 ∧ m.clock = BitVec.ofNat 64 (worked 0 trace) ∧
      worked 0 trace ≤ requests 0 trace := by
  have htwo := h.handled_two hs
  have hcount : ∀ n, n ≠ masterLine 7 → n ≠ slaveLine 7 →
      handled n trace ≤ requests n trace := by
    intro n h7 h15
    by_cases h2 : n = masterLine 2
    · rw [h2, htwo]
      exact Nat.zero_le _
    · exact (Nat.le_add_right _ _).trans (h.owed hs h2 h7 h15)
  refine ⟨hcount, htwo, h.clock, ?_⟩
  calc worked 0 trace ≤ handled 0 trace := (Nat.le_add_right _ _).trans (h.working hs 0)
    _ ≤ requests 0 trace := hcount 0 (by decide) (by decide)

theorem run_counts_clock :
    (∀ n, n ≠ masterLine 7 → n ≠ slaveLine 7 → handled n sampleTrace ≤ requests n sampleTrace) ∧
      handled (masterLine 2) sampleTrace = 0 ∧
      sampleClock.clock = BitVec.ofNat 64 (worked 0 sampleTrace) ∧
      worked 0 sampleTrace ≤ requests 0 sampleTrace :=
  run_counts sampleStubs_placed sampleClock_run

/-- **No request is lost.** From any state of a run on, a request stays until the device takes
it back or the handler of its line runs. -/
theorem run_kept (hs : Placed stubs) (h : Run stubs (boot stubs idtAddress s) trace m)
    {more : List Event} (hmore : Run stubs m more m') {n : Fin 16} (h2 : n ≠ masterLine 2)
    (hreq : m.controllers.isRequested n) (hwithdraw : Event.withdraw n ∉ more) :
    m'.controllers.isRequested n ∨ m'.entering stubs n ∨ ∃ scancode, .sendEoi n scancode ∈ more := by
  have hwaits : m'.Waits stubs n ∨ ∃ e ∈ more, e.handles = some n := by
    induction hmore with
    | start => exact Or.inl (Or.inl hreq)
    | @next more e m₁ m₂ hmore hstep ih =>
        have hall := h.append hmore
        rcases ih fun hmem => hwithdraw (List.mem_append_left _ hmem) with ih | ⟨e', he', hn⟩
        · have hne : e ≠ .withdraw n := fun he =>
            hwithdraw (he ▸ List.mem_append_right _ (List.mem_singleton_self _))
          exact (hstep.waits hs hall.configured (hall.phase hs) h2 hne ih).imp id fun hn =>
            ⟨e, List.mem_append_right _ (List.mem_singleton_self _), hn⟩
        · exact Or.inr ⟨e', List.mem_append_left _ he', hn⟩
  rcases hwaits with (hw | hw) | ⟨e, he, hn⟩
  · exact Or.inl hw
  · exact Or.inr (Or.inl hw)
  · cases e with
    | sendEoi k scancode =>
        obtain rfl : k = n := Option.some_inj.mp hn
        exact Or.inr (Or.inr ⟨scancode, he⟩)
    | _ => cases hn

/-- The request of the clock, when the processor has acknowledged it. -/
theorem run_kept_clock : sampleClock.enter.controllers.isRequested 0 ∨
    sampleClock.enter.entering sampleStubs 0 ∨
      ∃ scancode, Event.sendEoi 0 scancode ∈ [] ++ [Event.interrupt] :=
  run_kept sampleStubs_placed sampleClock_run (Run.start.next (.interrupt rfl)) (by decide)
    (by decide +kernel) (by decide)

/-- **The service comes to an end.** When no handler is in progress and the devices make no
more requests, the machine can serve all there are that are not masked. -/
theorem run_drains (hs : Placed stubs) (h : Run stubs (boot stubs idtAddress s) trace m)
    (hflag : m.interruptFlag = true) (scancode : BitVec 8) :
    Drains stubs m := by
  induction hb : m.controllers.backlog using Nat.strong_induction_on generalizing trace m with
  | _ b ih =>
      subst hb
      have hphase := h.phase hs
      have hidle := (hphase.frames_of_flag hflag).2
      by_cases hcascade : m.controllers.slavePending ≠ ∅ ∧ 2 ∉ m.controllers.master.requested ∧
          2 ∉ maskedLines m.controllers.ports.master.mask
      · -- the slave makes its request first
        obtain ⟨hslave, h2, hmask⟩ := hcascade
        have hsignal : m.controllers.slaveSignal ≠ none := fun hnone =>
          hslave ((Controllers.signal_eq_none_iff_empty hidle.slave).mp hnone)
        have hstep : Step stubs .cascade m
            { m with controllers := m.controllers.request (masterLine 2) } := .cascade hsignal
        obtain ⟨n, c', m', hround, htaken, hflag', hmaster, hslave'⟩ :=
          round hs (hstep.configured h.configured) (hstep.phase hs h.configured hphase) hflag scancode
        have hlt := htaken.backlog_cascade h2 hmask hslave
        rw [← Controllers.backlog_congr hmaster hslave'] at hlt
        have hrun := (Run.start.next hstep).append hround
        exact (ih _ hlt (h.append hrun) hflag' rfl).of_run hrun (by simp [Event.internal])
      · by_cases hpending : m.controllers.masterPending = ∅
        · refine ⟨[], m, .start, by simp, hflag, hpending, ?_⟩
          by_contra hnot
          rw [not_or] at hnot
          have hreq : (2 : Fin 8) ∈ m.controllers.master.requested :=
            not_not.mp fun h2 => hcascade ⟨hnot.1, h2, hnot.2⟩
          have hmem : (2 : Fin 8) ∈ m.controllers.masterPending :=
            Finset.mem_sdiff.mpr ⟨hreq, hnot.2⟩
          rw [hpending] at hmem
          exact absurd hmem (Finset.notMem_empty _)
        · obtain ⟨n, c', m', hround, htaken, hflag', hmaster, hslave'⟩ :=
            round hs h.configured hphase hflag scancode
          have hlt := htaken.backlog_lt hpending
          rw [← Controllers.backlog_congr hmaster hslave'] at hlt
          exact (ih _ hlt (h.append hround) hflag' rfl).of_run hround (by simp [Event.internal])

theorem run_drains_clock : Drains sampleStubs sampleClock :=
  run_drains sampleStubs_placed sampleClock_run rfl 2

end Boot

end Interrupts
end BootableKernel
