import BootableKernel.Devices.Controllers
import BootableKernel.Devices.Keyboard
import BootableKernel.Machine.Descriptors

/-!
# The service of interrupts

The kernel after its initialisation, with the devices around it. Requests come and go at any
time. While interrupts are enabled the processor acknowledges one: the vector that it
receives selects a gate of the table that `IDT_init` filled, and the processor goes where the
gate leads. A handler ends the service with `PIC_send_EOI` before it does its work, and the
handler of the keyboard calls `printKey`, which may change the mask of the clock.

The order of these steps is arbitrary, so a run is any sequence of them. `Phase` says what
holds in between: the gates turn interrupts off, so there is at most one handler, and what is
in service is its line or nothing.

## Main definitions

* `Machine`, `Step`, `Run`: the steps of the kernel and of the devices.
* `Phase`: the invariant.
-/

namespace BootableKernel
namespace Interrupts

open Pic Descriptors

/-! ## The machine -/

/-- The functions that are subscribed to the keyboard. -/
inductive Handler where
  | printKey

/-- `printKey`; other characters are printed. -/
def printKey (character : BitVec 8) (s : Ports) : Ports :=
  if character = 0x31 then irqClearMask 0 s
  else if character = 0x32 then irqSetMask 0 s
  else s

def Handler.call : Handler → BitVec 8 → BitVec 8 → Ports → Ports
  | .printKey, character, _, s => Interrupts.printKey character s

/-- How far a handler is. -/
inductive Stage where
  | entered
  /-- `PIC_send_EOI` has returned. The handler of the keyboard has read the scan code. -/
  | acknowledged (n : Fin 16) (scancode : BitVec 8)
  | returning
  deriving DecidableEq

/-- A handler in progress, and the interrupt flag of the code that it interrupted. -/
structure Frame where
  address : BitVec 64
  stage : Stage
  interruptFlag : Bool

structure Machine where
  controllers : Controllers
  pressHandlers : Slots Handler Keyboard.maxHandlers
  releaseHandlers : Slots Handler Keyboard.maxHandlers
  table : Idt
  interruptFlag : Bool
  /-- The handlers in progress, the innermost first. -/
  frames : List Frame
  /-- The variable `clock` of `irq0_handler`. -/
  clock : BitVec 64

namespace Machine

def keyboard (m : Machine) : Keyboard.State Handler :=
  ⟨m.pressHandlers, m.releaseHandlers, m.controllers.ports⟩

def setStage (stage : Stage) (m : Machine) : Machine :=
  { m with frames := m.frames.modifyHead fun f => { f with stage := stage } }

/-- The processor takes an interrupt. The type of an interrupt gate is even, and it clears
the interrupt flag; that of a trap gate is odd. -/
def enter (m : Machine) : Machine :=
  let gate := m.table m.controllers.acknowledge.1.toFin
  { m with
    controllers := m.controllers.acknowledge.2
    interruptFlag := m.interruptFlag && gate.typeAttr.getLsbD 0
    frames := ⟨gate.offset, .entered, m.interruptFlag⟩ :: m.frames }

/-- The handler `n` up to the end of `PIC_send_EOI`, with a byte in the keyboard's port. -/
def sendEoi (n : Fin 16) (scancode : BitVec 8) (m : Machine) : Machine :=
  let ports := (Keyboard.atPort m.keyboard scancode).ports
  setStage (.acknowledged n (inb Keyboard.kbdDataPort ports))
    { m with
      controllers :=
        Controllers.picSendEoi (BitVec.ofNat 32 n) { m.controllers with ports := ports } }

/-- The calls that `irq1_handler` makes after `PIC_send_EOI`. -/
def keyCalls (scancode : BitVec 8) (m : Machine) : List (Keyboard.Invocation Handler) :=
  let released := scancode &&& Keyboard.kbdStatusMask
  let code := scancode &&& Keyboard.kbdScancodeMask
  if released = 0 then Keyboard.onKeyPressed m.keyboard code
  else Keyboard.onKeyReleased m.keyboard code

/-- The calls, one after the other. -/
def callAll (calls : List (Keyboard.Invocation Handler)) (s : Ports) : Ports :=
  calls.foldl (fun s c => c.handler.call c.character c.code s) s

/-- The rest of the handler `n`; the others only print. -/
def work (n : Fin 16) (scancode : BitVec 8) (m : Machine) : Machine :=
  setStage .returning <|
    if n = 0 then { m with clock := m.clock + 1 }
    else if n = 1 then
      { m with controllers.ports := callAll (m.keyCalls scancode) m.controllers.ports }
    else m

def iret (m : Machine) : Machine :=
  { m with
    frames := m.frames.tail
    interruptFlag := (m.frames.head?.map Frame.interruptFlag).getD m.interruptFlag }

end Machine

/-! ## Runs -/

inductive Event where
  /-- A device makes a request, or takes it back. -/
  | request (n : Fin 16)
  | withdraw (n : Fin 16)
  /-- The slave's signal becomes a request at the master. -/
  | cascade
  /-- Code that is no handler changes the interrupt flag. -/
  | setFlag (b : Bool)
  | interrupt
  | sendEoi (n : Fin 16) (scancode : BitVec 8)
  | work (n : Fin 16) (scancode : BitVec 8)
  | iret
  deriving DecidableEq

/-- A step of the machine. No device is on line 2. -/
inductive Step (stubs : Stubs) : Event → Machine → Machine → Prop
  | request {m : Machine} {n : Fin 16} (hn : n ≠ masterLine 2) :
      Step stubs (.request n) m { m with controllers := m.controllers.request n }
  | withdraw {m : Machine} (n : Fin 16) :
      Step stubs (.withdraw n) m { m with controllers := m.controllers.withdraw n }
  | cascade {m : Machine} (h : m.controllers.slaveSignal ≠ none) :
      Step stubs .cascade m { m with controllers := m.controllers.request (masterLine 2) }
  | setFlag {m : Machine} (b : Bool) (h : m.frames = []) :
      Step stubs (.setFlag b) m { m with interruptFlag := b }
  | interrupt {m : Machine} (h : m.interruptFlag = true) : Step stubs .interrupt m m.enter
  | sendEoi {m : Machine} {n : Fin 16} (scancode : BitVec 8) {f : Frame} {fs : List Frame}
      (hf : m.frames = f :: fs) (hstage : f.stage = .entered) (hn : f.address = stubs.irq n) :
      Step stubs (.sendEoi n scancode) m (m.sendEoi n scancode)
  | work {m : Machine} {n : Fin 16} {scancode : BitVec 8} {f : Frame} {fs : List Frame}
      (hf : m.frames = f :: fs) (hstage : f.stage = .acknowledged n scancode) :
      Step stubs (.work n scancode) m (m.work n scancode)
  | iret {m : Machine} {f : Frame} {fs : List Frame}
      (hf : m.frames = f :: fs) (hstage : f.stage = .returning) : Step stubs .iret m m.iret

/-- The events of a run, the first one first. -/
inductive Run (stubs : Stubs) (m₀ : Machine) : List Event → Machine → Prop
  | start : Run stubs m₀ [] m₀
  | next {trace : List Event} {e : Event} {m m' : Machine} (h : Run stubs m₀ trace m)
      (hstep : Step stubs e m m') : Run stubs m₀ (trace ++ [e]) m'

theorem Run.append {stubs : Stubs} {m₀ m m' : Machine} {trace more : List Event}
    (h : Run stubs m₀ trace m) (hmore : Run stubs m more m') : Run stubs m₀ (trace ++ more) m' := by
  induction hmore with
  | start => rwa [List.append_nil]
  | next hmore hstep ih =>
      rw [← List.append_assoc]
      exact ih.next hstep

/-- The machine as `kmain` leaves it to the first program. The initialisation has also
reset the lines of both controllers. -/
def boot (stubs : Stubs) (idtAddress : BitVec 64) (s : Ports) : Machine :=
  let ports := picRemap 0x20 0x28 s
  let keyboard := (Keyboard.subscribePress (Keyboard.boot ports) Handler.printKey).2
  { controllers := { ports := irqSetMask 0 keyboard.ports, master := ⟨∅, ∅⟩, slave := ⟨∅, ∅⟩ }
    pressHandlers := keyboard.pressHandlers
    releaseHandlers := keyboard.releaseHandlers
    table := (idtInit stubs idtAddress zeroTable).1
    interruptFlag := true
    frames := []
    clock := 0 }

/-- The linker places the stubs at different addresses that gates keep. -/
structure Placed (stubs : Stubs) : Prop where
  reachable (i : Fin 16) : Reachable (stubs.irq i)
  injective : Function.Injective stubs.irq

/-! ## What does not change -/

/-- What the initialisation has set up. -/
structure Configured (stubs : Stubs) (m : Machine) : Prop where
  ports : Controllers.Remapped m.controllers.ports
  press : m.pressHandlers.values = [.printKey]
  release : m.releaseHandlers.values = []
  table (i : Fin 16) : m.table (irqIndex i) = gate (stubs.irq i) 0x8e

/-- The ports with the same two controllers behind them. -/
structure SameChips (s t : Ports) : Prop where
  master : s.master = t.master
  slave : s.slave = t.slave

theorem SameChips.remapped {s t : Ports} (h : SameChips s t) (ht : Controllers.Remapped t) :
    Controllers.Remapped s :=
  ⟨h.master ▸ ht.master, h.slave ▸ ht.slave⟩

theorem SameChips.masked {s t : Ports} (h : SameChips s t) (i : Fin 16) :
    Pic.masked s i = Pic.masked t i := by
  simp only [Pic.masked, h.master, h.slave]

/-- A change of a mask is no initialisation. -/
theorem remapped_run {s : Ports} (h : Controllers.Remapped s) (c : Pic.Call) :
    Controllers.Remapped (c.run s) := by
  have hready : Ready s := ⟨h.master.stage, h.slave.stage⟩
  have hchange : ∀ change (i : Fin 16),
      Controllers.Remapped (changeMask change (BitVec.ofNat 8 i) s) := by
    intro change i
    by_cases hi : i.val < 8
    · rw [changeMask_master hready change hi]
      exact ⟨⟨h.master.stage, h.master.vector, h.master.cascade, h.master.icw4⟩, h.slave⟩
    · rw [changeMask_slave hready change (by omega) (by omega)]
      exact ⟨h.master, h.slave.stage, h.slave.vector, h.slave.cascade, h.slave.icw4⟩
  cases c with
  | setMask i => exact hchange (fun value bit => value ||| bit) i
  | clearMask i => exact hchange (fun value bit => value &&& ~~~bit) i

theorem remapped_runAll {s : Ports} (h : Controllers.Remapped s) (calls : List Pic.Call) :
    Controllers.Remapped (runAll calls s) := by
  induction calls generalizing s with
  | nil => exact h
  | cons c calls ih => exact ih (remapped_run h c)

/-- What a key changes. -/
def clockCall (character : BitVec 8) : List Pic.Call :=
  if character = 0x31 then [.clearMask 0]
  else if character = 0x32 then [.setMask 0]
  else []

theorem printKey_eq (character : BitVec 8) (s : Ports) :
    printKey character s = runAll (clockCall character) s := by
  rw [printKey, clockCall]
  split
  · rfl
  · split <;> rfl

/-- The changes of the mask that an event makes: those of a key that is pressed. -/
def Event.maskCalls : Event → List Pic.Call
  | .work 1 scancode =>
      if scancode &&& Keyboard.kbdStatusMask = 0 then
        clockCall (Keyboard.scanCodeToChar (scancode &&& Keyboard.kbdScancodeMask))
      else []
  | _ => []

/-- The handler of the keyboard calls `printKey` for a key that is pressed. -/
theorem Configured.callAll_keyCalls {stubs : Stubs} {m : Machine} (h : Configured stubs m)
    (scancode : BitVec 8) (s : Ports) :
    Machine.callAll (m.keyCalls scancode) s = runAll (Event.work 1 scancode).maskCalls s := by
  rw [Machine.keyCalls, Event.maskCalls]
  split
  · have hcalls : Keyboard.onKeyPressed m.keyboard (scancode &&& Keyboard.kbdScancodeMask) =
        m.pressHandlers.values.map fun h =>
          ⟨h, Keyboard.scanCodeToChar (scancode &&& Keyboard.kbdScancodeMask),
            scancode &&& Keyboard.kbdScancodeMask⟩ := rfl
    rw [hcalls, h.press]
    exact printKey_eq _ s
  · have hcalls : Keyboard.onKeyReleased m.keyboard (scancode &&& Keyboard.kbdScancodeMask) =
        m.releaseHandlers.values.map fun h =>
          ⟨h, Keyboard.scanCodeToChar (scancode &&& Keyboard.kbdScancodeMask),
            scancode &&& Keyboard.kbdScancodeMask⟩ := rfl
    rw [hcalls, h.release]
    rfl

/-- The end of a service is no command to the rest of the controllers. -/
@[simp] theorem picSendEoi_eq (n : BitVec 32) (s : Ports) : Pic.picSendEoi n s = s := by
  rw [Pic.picSendEoi]
  split <;> rfl

variable {stubs : Stubs} {m m' : Machine} {e : Event}

theorem sendEoi_chips (m : Machine) (n : Fin 16) (scancode : BitVec 8) :
    SameChips (m.sendEoi n scancode).controllers.ports m.controllers.ports := by
  have hports : (m.sendEoi n scancode).controllers.ports =
      (Keyboard.atPort m.keyboard scancode).ports :=
    (Controllers.picSendEoi_ports _ _).trans (picSendEoi_eq _ _)
  rw [hports]
  exact ⟨rfl, rfl⟩

/-- What a step does to the controllers. -/
theorem Step.chips (hc : Configured stubs m) (h : Step stubs e m m') :
    SameChips m'.controllers.ports (runAll e.maskCalls m.controllers.ports) := by
  cases h with
  | request hn => rw [Controllers.request_ports]; exact ⟨rfl, rfl⟩
  | withdraw n => rw [Controllers.withdraw_ports]; exact ⟨rfl, rfl⟩
  | cascade h => rw [Controllers.request_ports]; exact ⟨rfl, rfl⟩
  | setFlag b h => exact ⟨rfl, rfl⟩
  | interrupt h => rw [Machine.enter, Controllers.acknowledge_ports]; exact ⟨rfl, rfl⟩
  | sendEoi scancode hf hstage hn => exact sendEoi_chips m _ scancode
  | @work _ n scancode =>
      by_cases h1 : n = 1
      · subst h1
        rw [← hc.callAll_keyCalls scancode]
        exact ⟨rfl, rfl⟩
      · have hcalls : (Event.work n scancode).maskCalls = [] := by
          unfold Event.maskCalls
          split
          · rename_i heq
            cases heq
            exact absurd rfl h1
          · rfl
        rw [hcalls]
        by_cases h0 : n = 0 <;> simp only [Machine.work, h0, h1, if_true, if_false] <;>
          exact ⟨rfl, rfl⟩
  | iret hf hstage => exact ⟨rfl, rfl⟩

theorem Step.configured (hc : Configured stubs m) (h : Step stubs e m m') :
    Configured stubs m' := by
  have hports := (h.chips hc).remapped (remapped_runAll hc.ports e.maskCalls)
  have hrest : m'.pressHandlers = m.pressHandlers ∧ m'.releaseHandlers = m.releaseHandlers ∧
      m'.table = m.table := by
    cases h with
    | @work _ n =>
        simp only [Machine.work, Machine.setStage]
        split
        · exact ⟨rfl, rfl, rfl⟩
        · split <;> exact ⟨rfl, rfl, rfl⟩
    | _ => exact ⟨rfl, rfl, rfl⟩
  obtain ⟨hpress, hrelease, htable⟩ := hrest
  exact ⟨hports, hpress ▸ hc.press, hrelease ▸ hc.release, htable ▸ hc.table⟩

/-! ## The invariant -/

/-- There is at most one handler. Before `PIC_send_EOI` its line is in service, and at any
other time no line is. -/
inductive Phase (stubs : Stubs) (m : Machine) : Prop
  | waiting (hf : m.frames = []) (hidle : m.controllers.Idle)
  | entered (n : Fin 16) (hf : m.frames = [⟨stubs.irq n, .entered, true⟩])
      (hflag : m.interruptFlag = false) (hserving : m.controllers.Serving n)
  | served (n : Fin 16) (stage : Stage) (hstage : stage ≠ .entered)
      (hf : m.frames = [⟨stubs.irq n, stage, true⟩]) (hflag : m.interruptFlag = false)
      (hidle : m.controllers.Idle)

/-- Only the lines in service matter. -/
theorem Phase.congr (hp : Phase stubs m) (hf : m'.frames = m.frames)
    (hflag : m'.interruptFlag = m.interruptFlag)
    (hsame : Controllers.SameService m.controllers m'.controllers) : Phase stubs m' := by
  cases hp with
  | waiting hf' hidle => exact .waiting (hf.trans hf') (hsame.idle hidle)
  | entered n hf' hflag' hserving =>
      exact .entered n (hf.trans hf') (hflag.trans hflag') (hsame.serving hserving)
  | served n stage hstage hf' hflag' hidle =>
      exact .served n stage hstage (hf.trans hf') (hflag.trans hflag') (hsame.idle hidle)

/-- With interrupts enabled no handler is in progress. -/
theorem Phase.frames_of_flag (hp : Phase stubs m) (h : m.interruptFlag = true) :
    m.frames = [] ∧ m.controllers.Idle := by
  cases hp with
  | waiting hf hidle => exact ⟨hf, hidle⟩
  | entered n hf hflag => rw [h] at hflag; cases hflag
  | served n stage hstage hf hflag => rw [h] at hflag; cases hflag

/-- A handler at its stub is the only one, and its line is in service. -/
theorem Phase.at_stub (hs : Placed stubs) (hp : Phase stubs m) {f : Frame} {fs : List Frame}
    (hf : m.frames = f :: fs) (hstage : f.stage = .entered) {n : Fin 16}
    (hn : f.address = stubs.irq n) :
    m.frames = [⟨stubs.irq n, .entered, true⟩] ∧ m.interruptFlag = false ∧
      m.controllers.Serving n := by
  cases hp with
  | waiting hf' => rw [hf'] at hf; cases hf
  | entered k hf' hflag hserving =>
      rw [hf'] at hf
      cases hf
      obtain rfl : k = n := hs.injective hn
      exact ⟨hf', hflag, hserving⟩
  | served k stage hstage' hf' => rw [hf'] at hf; cases hf; exact absurd hstage hstage'

/-- One that is further is the only one, too, and no line is in service. -/
theorem Phase.behind_stub (hp : Phase stubs m) {f : Frame} {fs : List Frame}
    (hf : m.frames = f :: fs) (hstage : f.stage ≠ .entered) :
    ∃ n, m.frames = [⟨stubs.irq n, f.stage, true⟩] ∧ m.interruptFlag = false ∧
      m.controllers.Idle := by
  cases hp with
  | waiting hf' => rw [hf'] at hf; cases hf
  | entered k hf' => rw [hf'] at hf; cases hf; exact absurd rfl hstage
  | served k stage hstage' hf' hflag hidle =>
      rw [hf'] at hf
      cases hf
      exact ⟨k, hf', hflag, hidle⟩

theorem toFin_vector (n : Fin 16) : (BitVec.ofNat 8 (32 + n.val)).toFin = irqIndex n := by
  revert n
  decide

/-- The gates of requests are interrupt gates. -/
theorem interruptGate : BitVec.getLsbD (0x8e : BitVec 8) 0 = false := by decide

/-- The processor goes to the stub of the line that comes first, with interrupts disabled. -/
theorem enter_spec (hs : Placed stubs) (hc : Configured stubs m) (hf : m.frames = [])
    (hflag : m.interruptFlag = true) (hidle : m.controllers.Idle) :
    ∃ n, Controllers.Taken m.controllers n m.enter.controllers ∧
      m.enter.frames = [⟨stubs.irq n, .entered, true⟩] ∧ m.enter.interruptFlag = false := by
  obtain ⟨n, hvector, htaken⟩ := Controllers.acknowledge_spec hc.ports hidle
  have hgate : m.table m.controllers.acknowledge.1.toFin = gate (stubs.irq n) 0x8e := by
    rw [hvector, toFin_vector, hc.table]
  refine ⟨n, htaken, ?_, ?_⟩
  · rw [Machine.enter]
    dsimp only
    rw [hgate, (offset_gate_iff _ _).mpr (hs.reachable n), hf, hflag]
  · rw [Machine.enter]
    dsimp only
    rw [hgate, hflag, Bool.true_and]
    exact interruptGate

theorem work_frames (n : Fin 16) (scancode : BitVec 8) (m : Machine) :
    (m.work n scancode).frames = m.frames.modifyHead fun f => { f with stage := .returning } := by
  simp only [Machine.work, Machine.setStage]
  split
  · rfl
  · split <;> rfl

theorem Step.phase (hs : Placed stubs) (hc : Configured stubs m) (hp : Phase stubs m)
    (h : Step stubs e m m') : Phase stubs m' := by
  cases h with
  | request hn => exact hp.congr rfl rfl (Controllers.request_same _ _)
  | withdraw n => exact hp.congr rfl rfl (Controllers.withdraw_same _ _)
  | cascade h => exact hp.congr rfl rfl (Controllers.request_same (masterLine 2) m.controllers)
  | setFlag b h =>
      cases hp with
      | waiting hf hidle => exact .waiting hf hidle
      | entered n hf => rw [h] at hf; cases hf
      | served n stage hstage hf => rw [h] at hf; cases hf
  | interrupt h =>
      obtain ⟨hf, hidle⟩ := hp.frames_of_flag h
      obtain ⟨n, htaken, hframes, hflag⟩ := enter_spec hs hc hf h hidle
      exact .entered n hframes hflag (htaken.serving hidle)
  | @sendEoi _ k scancode f fs hf hstage hk =>
      obtain ⟨hframes, hflag, hserving⟩ := hp.at_stub hs hf hstage hk
      have hserving' : Controllers.Serving
          { m.controllers with ports := (Keyboard.atPort m.keyboard scancode).ports } k :=
        Controllers.SameService.serving (c := m.controllers) ⟨rfl, rfl⟩ hserving
      refine .served k (.acknowledged k (inb Keyboard.kbdDataPort
        (Keyboard.atPort m.keyboard scancode).ports)) (fun h => by cases h) ?_ hflag hserving'.idle
      simp only [Machine.sendEoi, Machine.setStage, hframes, List.modifyHead_cons]
  | @work _ k scancode f fs hf hstage =>
      have hwork : (m.work k scancode).interruptFlag = m.interruptFlag ∧
          Controllers.SameService m.controllers (m.work k scancode).controllers := by
        simp only [Machine.work, Machine.setStage]
        split
        · exact ⟨rfl, rfl, rfl⟩
        · split <;> exact ⟨rfl, rfl, rfl⟩
      obtain ⟨hflag', hsame⟩ := hwork
      obtain ⟨n, hframes, hflag, hidle⟩ :=
        hp.behind_stub hf (hstage ▸ fun h => by cases h)
      refine .served n .returning (fun h => by cases h) ?_ (hflag'.trans hflag) (hsame.idle hidle)
      rw [work_frames, hframes, List.modifyHead_cons]
  | @iret _ f fs hf hstage =>
      obtain ⟨n, hframes, -, hidle⟩ := hp.behind_stub hf (hstage ▸ fun h => by cases h)
      refine .waiting ?_ hidle
      rw [Machine.iret, hframes]
      rfl

/-! ## From boot on -/

section Boot

variable {idtAddress : BitVec 64} {s : Ports} {trace : List Event}

theorem boot_configured : Configured stubs (boot stubs idtAddress s) := by
  have hremap : Controllers.Remapped (picRemap 0x20 0x28 s) := by
    obtain ⟨⟨hmaster, -⟩, ⟨hslave, -⟩, -⟩ := picRemap_masks 0x20 0x28 s []
    exact ⟨hmaster, hslave⟩
  refine ⟨remapped_run hremap (.setMask 0), rfl, rfl, fun i => ?_⟩
  exact idtInit_irq stubs idtAddress zeroTable i

theorem Run.configured (h : Run stubs (boot stubs idtAddress s) trace m) : Configured stubs m := by
  induction h with
  | start => exact boot_configured
  | next h hstep ih => exact hstep.configured ih

theorem Run.phase (hs : Placed stubs) (h : Run stubs (boot stubs idtAddress s) trace m) :
    Phase stubs m := by
  induction h with
  | start => exact .waiting rfl ⟨rfl, rfl⟩
  | next h hstep ih => exact hstep.phase hs h.configured ih

end Boot

/-! ## A run -/

/-- Stubs of 32 bytes from `0x9000` on. -/
def sampleStubs : Stubs where
  isr i := BitVec.ofNat 64 (0x8000 + 32 * i)
  irq i := BitVec.ofNat 64 (0x9000 + 32 * i)

theorem sampleStubs_placed : Placed sampleStubs := by
  refine ⟨fun i j hlo hhi => ?_, by decide⟩
  obtain rfl | rfl | rfl | rfl : j = 28 ∨ j = 29 ∨ j = 30 ∨ j = 31 := by omega
  all_goals
    revert i
    decide

/-- Controllers that nothing is masked at. -/
def samplePorts : Ports := ⟨⟨.ready, 0, 0, 0, 0, 0⟩, ⟨.ready, 0, 0, 0, 0, 0⟩, fun _ => 0⟩

def sampleBoot : Machine := boot sampleStubs 0 samplePorts

/-- The key `1` was pressed, which has the scan code 2, and the clock makes a request. -/
def sampleClock : Machine :=
  let m := { sampleBoot with controllers := sampleBoot.controllers.request 1 }
  let m := (((m.enter).sendEoi 1 2).work 1 2).iret
  { m with controllers := m.controllers.request 0 }

def sampleTrace : List Event :=
  [.request 1, .interrupt, .sendEoi 1 2, .work 1 2, .iret, .request 0]

theorem sampleClock_run : Run sampleStubs sampleBoot sampleTrace sampleClock := by
  have hkey : Step sampleStubs (.request 1) sampleBoot
      { sampleBoot with controllers := sampleBoot.controllers.request 1 } :=
    .request (by decide)
  refine (((((Run.start.next hkey).next (.interrupt rfl)).next
    (.sendEoi 2 rfl rfl ?_)).next (.work rfl ?_)).next (.iret rfl rfl)).next (.request (by decide))
  · decide +kernel
  · decide +kernel

end Interrupts
end BootableKernel
