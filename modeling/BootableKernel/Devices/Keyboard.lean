import BootableKernel.Devices.Pic
import BootableKernel.Lib.Slots

/-!
# The keyboard

`KbController.c` keeps a table of handlers for pressed keys and one for released keys. The
keyboard's interrupt reads a byte from the controller and calls one of the two tables.

A history is any sequence of subscriptions and interrupts. Handlers are function pointers
that are not `NULL`; they are only named here, and what they do is not modelled, since
none of them subscribes. What a run returned and called is its trace.
-/

namespace BootableKernel
namespace Keyboard

variable {α : Type*}

def maxHandlers : ℕ := 8

def kbdDataPort : BitVec 16 := 0x60#16
def kbdScancodeMask : BitVec 8 := 0x7f#8
def kbdStatusMask : BitVec 8 := 0x80#8

/-- The characters of the scan codes from zero on. -/
def translationTable : List (BitVec 8) :=
  [0, 0,
    -- the digits, minus, equals, backspace and tab
    0x31, 0x32, 0x33, 0x34, 0x35, 0x36, 0x37, 0x38, 0x39, 0x30, 0x2d, 0x3d, 0x08, 0x09,
    -- from q to p, the square brackets, newline and control
    0x71, 0x77, 0x65, 0x72, 0x74, 0x79, 0x75, 0x69, 0x6f, 0x70, 0x5b, 0x5d, 0x0a, 0,
    -- from a to l, the semicolon and the apostrophe
    0x61, 0x73, 0x64, 0x66, 0x67, 0x68, 0x6a, 0x6b, 0x6c, 0x3b, 0x27,
    -- tilde, shift, backslash, from z to m, comma, full stop, slash, and the space bar
    0x7e, 0, 0x5c, 0x7a, 0x78, 0x63, 0x76, 0x62, 0x6e, 0x6d, 0x2c, 0x2e, 0x2f, 0, 0, 0, 0x20]

def scanCodeToChar (scancode : BitVec 8) : BitVec 8 :=
  if h : scancode.toNat < translationTable.length then translationTable[scancode.toNat] else 0

/-- The two tables, and the ports with the keyboard and the interrupt controllers. -/
structure State (α : Type*) where
  pressHandlers : Slots α maxHandlers
  releaseHandlers : Slots α maxHandlers
  ports : Pic.Ports

/-- The call of a handler. -/
structure Invocation (α : Type*) where
  handler : α
  character : BitVec 8
  code : BitVec 8

/-- The two tables by name. -/
inductive Kind where
  | press | release
  deriving DecidableEq

def State.handlers (s : State α) : Kind → Slots α maxHandlers
  | .press => s.pressHandlers
  | .release => s.releaseHandlers

def State.setHandlers (s : State α) (t : Slots α maxHandlers) : Kind → State α
  | .press => { s with pressHandlers := t }
  | .release => { s with releaseHandlers := t }

/-- Put a handler into the first free slot of its table. -/
def subscribe (k : Kind) (s : State α) (h : α) : Bool × State α :=
  match (s.handlers k).insert h with
  | some t => (true, s.setHandlers t k)
  | none => (false, s)

def subscribePress (s : State α) (h : α) : Bool × State α := subscribe .press s h

def subscribeRelease (s : State α) (h : α) : Bool × State α := subscribe .release s h

/-- Call the handlers of a table. -/
def callEach (k : Kind) (s : State α) (scancode : BitVec 8) : List (Invocation α) :=
  (s.handlers k).values.map fun h => ⟨h, scanCodeToChar scancode, scancode⟩

def onKeyPressed (s : State α) (scancode : BitVec 8) : List (Invocation α) :=
  callEach .press s scancode

def onKeyReleased (s : State α) (scancode : BitVec 8) : List (Invocation α) :=
  callEach .release s scancode

def irq1Handler (s : State α) : List (Invocation α) × State α :=
  let scancode := Pic.inb kbdDataPort s.ports
  let s := { s with ports := Pic.picSendEoi 1 s.ports }
  let released := scancode &&& kbdStatusMask
  let code := scancode &&& kbdScancodeMask
  if released = 0 then (onKeyPressed s code, s) else (onKeyReleased s code, s)

/-! ## Histories -/

inductive Event (α : Type*) where
  /-- A call of `subscribePress` or of `subscribeRelease`. -/
  | subscribe (k : Kind) (h : α)
  /-- The keyboard has a byte. -/
  | interrupt (scancode : BitVec 8)

inductive Response (α : Type*) where
  | returned (ok : Bool)
  | invoked (calls : List (Invocation α))

/-- The keyboard's byte at its port. -/
def atPort (s : State α) (scancode : BitVec 8) : State α :=
  { s with ports.others := Function.update s.ports.others kbdDataPort scancode }

def step (s : State α) : Event α → Response α × State α
  | .subscribe .press h => (.returned (subscribePress s h).1, (subscribePress s h).2)
  | .subscribe .release h => (.returned (subscribeRelease s h).1, (subscribeRelease s h).2)
  | .interrupt scancode =>
      (.invoked (irq1Handler (atPort s scancode)).1, (irq1Handler (atPort s scancode)).2)

/-- Events with their responses, the first one first. -/
abbrev Trace (α : Type*) := List (Event α × Response α)

/-- The run of a history, with its trace. -/
def run (s : State α) (history : List (Event α)) : Trace α × State α :=
  history.foldl (fun r e => (r.1 ++ [(e, (step r.2 e).1)], (step r.2 e).2)) ([], s)

/-- The tables are in the `.bss` section: they start empty. -/
def boot (ports : Pic.Ports) : State α := ⟨Slots.empty, Slots.empty, ports⟩

/-- The handlers whose subscription returned true, in order. -/
def granted (k : Kind) (trace : Trace α) : List α :=
  trace.filterMap fun
    | (.subscribe k' h, .returned true) => if k' = k then some h else none
    | _ => none

/-- The tables hold the handlers that the trace says were granted. -/
def Tracked (r : Trace α × State α) : Prop :=
  ∀ k, (r.2.handlers k).Holds (granted k r.1)

theorem tracked_boot (ports : Pic.Ports) : Tracked (([], boot ports) : Trace α × State α) := by
  intro k
  cases k <;> exact Slots.holds_empty

@[simp] theorem granted_concat (k : Kind) (trace : Trace α) (e : Event α) (r : Response α) :
    granted k (trace ++ [(e, r)]) = granted k trace ++ granted k [(e, r)] :=
  List.filterMap_append

theorem granted_returned_true (k k' : Kind) (h : α) :
    granted k [(.subscribe k' h, .returned true)] = if k' = k then [h] else [] := by
  by_cases hk : k' = k <;> simp [granted, hk]

theorem step_subscribe (s : State α) (k : Kind) (h : α) :
    step s (.subscribe k h) = (.returned (subscribe k s h).1, (subscribe k s h).2) := by
  cases k <;> rfl

@[simp] theorem handlers_setHandlers (s : State α) (t : Slots α maxHandlers) (k : Kind) :
    (s.setHandlers t k).handlers = Function.update s.handlers k t := by
  funext k'
  cases k <;> cases k' <;> rfl

/-- What a subscription does with a table that has room, and with a full one. -/
theorem subscribe_cases (k : Kind) (s : State α) (h : α) :
    (∃ t, (s.handlers k).insert h = some t ∧ subscribe k s h = (true, s.setHandlers t k)) ∨
      ((s.handlers k).insert h = none ∧ subscribe k s h = (false, s)) := by
  cases hins : (s.handlers k).insert h with
  | none => exact Or.inr ⟨rfl, by simp [subscribe, hins]⟩
  | some t => exact Or.inl ⟨t, rfl, by simp [subscribe, hins]⟩

/-- A subscription succeeds if its table has room, and a refused one changes nothing. -/
theorem subscribe_result {k : Kind} {s : State α} {l : List α} (hl : (s.handlers k).Holds l)
    (h : α) :
    (subscribe k s h).1 = decide (l.length < maxHandlers) ∧
      ((subscribe k s h).1 = false → (subscribe k s h).2 = s) := by
  obtain ⟨t, hins, hok⟩ | ⟨hins, hfull⟩ := subscribe_cases k s h
  · have hroom : l.length < maxHandlers := by
      apply lt_of_le_of_ne hl.length_le
      intro heq
      rw [hl.insert_full heq h] at hins
      cases hins
    simp [hok, hroom]
  · have hnoroom : ¬ l.length < maxHandlers := by
      intro hlt
      obtain ⟨t, hins', -⟩ := hl.insert hlt h
      rw [hins] at hins'
      cases hins'
    simp [hfull, hnoroom]

theorem tracked_subscribe {r : Trace α × State α} (hr : Tracked r) (k : Kind) (h : α) :
    Tracked (r.1 ++ [(.subscribe k h, (step r.2 (.subscribe k h)).1)],
      (step r.2 (.subscribe k h)).2) := by
  intro k'
  rw [granted_concat, step_subscribe]
  obtain ⟨t, hins, hok⟩ | ⟨-, hfull⟩ := subscribe_cases k r.2 h
  · have hroom : (granted k r.1).length < maxHandlers := by
      simpa [hok] using (subscribe_result (hr k) h).1
    obtain ⟨t', hins', hholds⟩ := (hr k).insert hroom h
    obtain rfl : t' = t := Option.some.inj (hins'.symm.trans hins)
    rw [hok, granted_returned_true, handlers_setHandlers]
    by_cases hk : k' = k
    · subst hk
      simpa using hholds
    · simpa [Function.update_of_ne hk, Ne.symm hk] using hr k'
  · rw [hfull]
    simpa [granted] using hr k'

@[simp] theorem handlers_interrupt (s : State α) (scancode : BitVec 8) :
    (step s (.interrupt scancode)).2.handlers = s.handlers := by
  funext k
  unfold step irq1Handler
  dsimp only
  split <;> cases k <;> rfl

theorem tracked_step {r : Trace α × State α} (hr : Tracked r) (e : Event α) :
    Tracked (r.1 ++ [(e, (step r.2 e).1)], (step r.2 e).2) := by
  cases e with
  | subscribe k h => exact tracked_subscribe hr k h
  | interrupt scancode =>
      intro k
      rw [handlers_interrupt, granted_concat]
      simpa [granted, step] using hr k

theorem tracked_run (ports : Pic.Ports) (history : List (Event α)) :
    Tracked (run (boot ports) history) := by
  induction history using List.reverseRecOn with
  | nil => exact tracked_boot ports
  | append_singleton history e ih =>
      rw [run, List.foldl_append]
      exact tracked_step ih e

/-! ## Interrupts -/

@[simp] theorem inb_atPort (s : State α) (scancode : BitVec 8) :
    Pic.inb kbdDataPort (atPort s scancode).ports = scancode := by
  have hmaster : kbdDataPort ≠ Pic.pic1Data := by decide
  have hslave : kbdDataPort ≠ Pic.pic2Data := by decide
  simp [Pic.inb, hmaster, hslave, atPort]

theorem status_eq_zero_iff : ∀ b : BitVec 8, b &&& kbdStatusMask = 0 ↔ b < 0x80 := by decide

theorem code_of_pressed : ∀ b : BitVec 8, b < 0x80 → b &&& kbdScancodeMask = b := by decide

/-- The interrupt calls the table of its kind. -/
theorem step_interrupt (s : State α) (scancode : BitVec 8) :
    (step s (.interrupt scancode)).1 = .invoked
      (if scancode < 0x80 then callEach .press s scancode
        else callEach .release s (scancode &&& 0x7f)) := by
  simp only [step, irq1Handler, inb_atPort]
  by_cases hb : scancode < 0x80
  · rw [if_pos ((status_eq_zero_iff scancode).mpr hb), if_pos hb, code_of_pressed scancode hb]
    rfl
  · rw [if_neg (fun h => hb ((status_eq_zero_iff scancode).mp h)), if_neg hb]
    rfl

/-- After any history of subscriptions and interrupts, an interrupt calls the handlers of
its kind that were granted so far, each of them once and in order. A subscription is
granted exactly if fewer than `MAX_HANDLERS` of its kind were, and a refused one leaves
the state as it is. -/
theorem deliver_granted (ports : Pic.Ports) (history : List (Event α)) :
    let r := run (boot ports) history
    (∀ b, (step r.2 (.interrupt b)).1 = .invoked
        (if b < 0x80 then (granted .press r.1).map fun h => ⟨h, scanCodeToChar b, b⟩
          else (granted .release r.1).map fun h =>
            ⟨h, scanCodeToChar (b &&& 0x7f), b &&& 0x7f⟩)) ∧
      ∀ k h,
        (step r.2 (.subscribe k h)).1 =
            .returned (decide ((granted k r.1).length < maxHandlers)) ∧
          ((step r.2 (.subscribe k h)).1 = .returned false →
            (step r.2 (.subscribe k h)).2 = r.2) := by
  intro r
  have hr : Tracked r := tracked_run ports history
  constructor
  · intro b
    rw [step_interrupt, callEach, callEach, (hr .press).values_eq, (hr .release).values_eq]
  · intro k h
    have hres := subscribe_result (hr k) h
    rw [step_subscribe]
    constructor
    · exact congrArg Response.returned hres.1
    · intro hfalse
      exact hres.2 (Response.returned.inj hfalse)

end Keyboard
end BootableKernel
