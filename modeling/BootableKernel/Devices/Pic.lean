import Mathlib.Data.BitVec

/-!
# The interrupt controllers

Two 8259 controllers sit behind four ports. A command with the bit `ICW1_INIT` starts an
initialisation: it clears the mask, and the writes to the data port that follow it are the
initialisation words. Which of them are expected is also said by the command. At any other
time the data port is the mask, and a read of it always is.

`PIC_remap` runs the two initialisations interleaved and puts the masks back.
`IRQ_set_mask` and `IRQ_clear_mask` then read, change and write one mask each.
-/

namespace BootableKernel
namespace Pic

/-- The initialisation word that a write to the data port is taken for. -/
inductive Stage where
  | ready | icw2 | icw3 | icw4
  deriving DecidableEq

/-- One controller. -/
structure Controller where
  stage : Stage
  /-- The command of the last initialisation. -/
  icw1 : BitVec 8
  /-- The vector of its first line. -/
  vector : BitVec 8
  /-- For the master the lines with a slave, for the slave its line. -/
  cascade : BitVec 8
  icw4 : BitVec 8
  mask : BitVec 8

def icw1Icw4 : BitVec 8 := 0x01#8
def icw1Single : BitVec 8 := 0x02#8
def icw1Init : BitVec 8 := 0x10#8
def icw4Mode8086 : BitVec 8 := 0x01#8
def picEoi : BitVec 8 := 0x20#8

namespace Controller

/-- After `ICW3`, or in its place. -/
def afterIcw3 (c : Controller) : Stage := if c.icw1 &&& icw1Icw4 = 0 then .ready else .icw4

/-- A write to the command port. Commands other than `ICW1` do not change what is
modelled here. -/
def command (v : BitVec 8) (c : Controller) : Controller :=
  if v &&& icw1Init = 0 then c
  else { c with stage := .icw2, icw1 := v, mask := 0 }

/-- A write to the data port. -/
def data (v : BitVec 8) (c : Controller) : Controller :=
  match c.stage with
  | .icw2 =>
      { c with
        vector := v
        stage := if c.icw1 &&& icw1Single = 0 then .icw3 else c.afterIcw3 }
  | .icw3 => { c with cascade := v, stage := c.afterIcw3 }
  | .icw4 => { c with icw4 := v, stage := .ready }
  | .ready => { c with mask := v }

end Controller

/-- What is behind the ports. -/
structure Ports where
  master : Controller
  slave : Controller
  /-- What the other ports answer. -/
  others : BitVec 16 → BitVec 8

def pic1Command : BitVec 16 := 0x20#16
def pic1Data : BitVec 16 := 0x21#16
def pic2Command : BitVec 16 := 0xa0#16
def pic2Data : BitVec 16 := 0xa1#16

def outb (port : BitVec 16) (v : BitVec 8) (s : Ports) : Ports :=
  if port = pic1Command then { s with master := s.master.command v }
  else if port = pic1Data then { s with master := s.master.data v }
  else if port = pic2Command then { s with slave := s.slave.command v }
  else if port = pic2Data then { s with slave := s.slave.data v }
  else s

def inb (port : BitVec 16) (s : Ports) : BitVec 8 :=
  if port = pic1Data then s.master.mask
  else if port = pic2Data then s.slave.mask
  else s.others port

/-- A write to a port that nothing listens on. -/
def ioWait (s : Ports) : Ports := outb 0x80#16 0 s

def picSendEoi (irqNo : BitVec 32) (s : Ports) : Ports :=
  let s := if 8 ≤ irqNo then outb pic2Command picEoi s else s
  outb pic1Command picEoi s

def picRemap (offset1 offset2 : BitVec 32) (s : Ports) : Ports :=
  -- save masks
  let a1 := inb pic1Data s
  let a2 := inb pic2Data s
  -- starts the initialization sequence (in cascade mode)
  let s := ioWait (outb pic1Command (icw1Init ||| icw1Icw4) s)
  let s := ioWait (outb pic2Command (icw1Init ||| icw1Icw4) s)
  -- ICW2: the vector offsets
  let s := ioWait (outb pic1Data (offset1.setWidth 8) s)
  let s := ioWait (outb pic2Data (offset2.setWidth 8) s)
  -- ICW3: the master has a slave at IRQ2, and the slave is that one
  let s := ioWait (outb pic1Data 4 s)
  let s := ioWait (outb pic2Data 2 s)
  let s := ioWait (outb pic1Data icw4Mode8086 s)
  let s := ioWait (outb pic2Data icw4Mode8086 s)
  -- restore saved masks
  outb pic2Data a2 (outb pic1Data a1 s)

/-- The common body of `IRQ_set_mask` and `IRQ_clear_mask`. The new value is computed as an
`int`. -/
def changeMask (change : BitVec 32 → BitVec 32 → BitVec 32) (irqLine : BitVec 8)
    (s : Ports) : Ports :=
  let port := if irqLine < 8 then pic1Data else pic2Data
  let irqLine := if irqLine < 8 then irqLine else irqLine - 8
  let value := (change ((inb port s).setWidth 32) (1#32 <<< irqLine.toNat)).setWidth 8
  outb port value s

def irqSetMask : BitVec 8 → Ports → Ports := changeMask fun value bit => value ||| bit

def irqClearMask : BitVec 8 → Ports → Ports := changeMask fun value bit => value &&& ~~~bit

/-! ## Initialisation -/

/-- An initialised controller: data writes go to the mask. -/
structure Controller.Initialised (c : Controller) (vector cascade : BitVec 8) : Prop where
  stage : c.stage = .ready
  vector : c.vector = vector
  cascade : c.cascade = cascade
  icw4 : c.icw4 = icw4Mode8086

/-- The words that `PIC_remap` sends to one controller, whatever it was doing before: the
command says that all three words follow, and the fourth write is the mask. -/
theorem Controller.init_spec (c : Controller) (vector cascade mask : BitVec 8) :
    let c' := ((((c.command (icw1Init ||| icw1Icw4)).data vector).data cascade).data
      icw4Mode8086).data mask
    c'.Initialised vector cascade ∧ c'.mask = mask := by
  have hinit : (icw1Init ||| icw1Icw4) &&& icw1Init ≠ 0 := by decide
  have hcascade : (icw1Init ||| icw1Icw4) &&& icw1Single = 0 := by decide
  have hicw4 : (icw1Init ||| icw1Icw4) &&& icw1Icw4 ≠ 0 := by decide
  simp only [command, data, afterIcw3, if_neg hinit, if_pos hcascade, if_neg hicw4]
  exact ⟨⟨rfl, rfl, rfl, rfl⟩, trivial⟩

/-- `PIC_remap` sends each controller its own words, and the mask it had. -/
theorem picRemap_eq (offset1 offset2 : BitVec 32) (s : Ports) :
    picRemap offset1 offset2 s =
      { s with
        master := ((((s.master.command (icw1Init ||| icw1Icw4)).data
          (offset1.setWidth 8)).data 4).data icw4Mode8086).data s.master.mask
        slave := ((((s.slave.command (icw1Init ||| icw1Icw4)).data
          (offset2.setWidth 8)).data 2).data icw4Mode8086).data s.slave.mask } :=
  rfl

/-! ## Masks -/

/-- Whether a line is masked. -/
def masked (s : Ports) (i : Fin 16) : Bool :=
  if i.val < 8 then s.master.mask.getLsbD i else s.slave.mask.getLsbD (i - 8)

/-- Both controllers take a data write for a mask. -/
def Ready (s : Ports) : Prop := s.master.stage = .ready ∧ s.slave.stage = .ready

/-- A call of one of the two functions. -/
inductive Call where
  | setMask (line : Fin 16)
  | clearMask (line : Fin 16)
  deriving DecidableEq

def Call.line : Call → Fin 16
  | .setMask i => i
  | .clearMask i => i

/-- Whether a call sets the mask of its line. -/
def Call.sets : Call → Bool
  | .setMask _ => true
  | .clearMask _ => false

def Call.run : Call → Ports → Ports
  | .setMask i => irqSetMask (BitVec.ofNat 8 i)
  | .clearMask i => irqClearMask (BitVec.ofNat 8 i)

/-- A change of a mask that gives the bit of its line the value `b`. -/
def GivesBit (change : BitVec 32 → BitVec 32 → BitVec 32) (b : Bool) : Prop :=
  ∀ (mask : BitVec 8) (k j : ℕ), k < 8 →
    ((change (mask.setWidth 32) (1#32 <<< k)).setWidth 8).getLsbD j =
      if j = k then b else mask.getLsbD j

theorem givesBit_set : GivesBit (fun value bit => value ||| bit) true := by
  intro mask k j hk
  by_cases hj : j < 8
  · simp only [BitVec.getLsbD_setWidth, BitVec.getLsbD_or, BitVec.getLsbD_shiftLeft,
      BitVec.getLsbD_one, hj]
    grind
  · simp [BitVec.getLsbD_of_ge _ j (Nat.not_lt.mp hj), show j ≠ k by omega]

theorem givesBit_clear : GivesBit (fun value bit => value &&& ~~~bit) false := by
  intro mask k j hk
  by_cases hj : j < 8
  · simp only [BitVec.getLsbD_setWidth, BitVec.getLsbD_and, BitVec.getLsbD_not,
      BitVec.getLsbD_shiftLeft, BitVec.getLsbD_one, hj]
    grind
  · simp [BitVec.getLsbD_of_ge _ j (Nat.not_lt.mp hj), show j ≠ k by omega]

@[simp] theorem inb_master (s : Ports) : inb pic1Data s = s.master.mask := rfl

@[simp] theorem inb_slave (s : Ports) : inb pic2Data s = s.slave.mask := rfl

theorem data_ready {c : Controller} (h : c.stage = .ready) (v : BitVec 8) :
    c.data v = { c with mask := v } := by
  simp only [Controller.data, h]

theorem outb_master {s : Ports} (h : s.master.stage = .ready) (v : BitVec 8) :
    outb pic1Data v s = { s with master.mask := v } := by
  have hport : outb pic1Data v s = { s with master := s.master.data v } := rfl
  rw [hport, data_ready h]

theorem outb_slave {s : Ports} (h : s.slave.stage = .ready) (v : BitVec 8) :
    outb pic2Data v s = { s with slave.mask := v } := by
  have hport : outb pic2Data v s = { s with slave := s.slave.data v } := rfl
  rw [hport, data_ready h]

/-- A line below eight is changed at the master. -/
theorem changeMask_master {s : Ports} (h : Ready s)
    (change : BitVec 32 → BitVec 32 → BitVec 32) {k : ℕ} (hk : k < 8) :
    changeMask change (BitVec.ofNat 8 k) s =
      { s with
        master.mask := (change (s.master.mask.setWidth 32) (1#32 <<< k)).setWidth 8 } := by
  have hlt : BitVec.ofNat 8 k < 8 := by
    rw [BitVec.lt_def, BitVec.toNat_ofNat, Nat.mod_eq_of_lt (by omega)]
    exact hk
  have hbit : (BitVec.ofNat 8 k).toNat = k := by
    rw [BitVec.toNat_ofNat, Nat.mod_eq_of_lt (by omega)]
  simp only [changeMask, if_pos hlt, hbit, inb_master, outb_master h.1]

/-- The other lines are changed at the slave. -/
theorem changeMask_slave {s : Ports} (h : Ready s)
    (change : BitVec 32 → BitVec 32 → BitVec 32) {k : ℕ} (hk : 8 ≤ k) (hk' : k < 16) :
    changeMask change (BitVec.ofNat 8 k) s =
      { s with
        slave.mask := (change (s.slave.mask.setWidth 32) (1#32 <<< (k - 8))).setWidth 8 } := by
  have hbit : (BitVec.ofNat 8 k).toNat = k := by
    rw [BitVec.toNat_ofNat, Nat.mod_eq_of_lt (by omega)]
  have hlt : ¬ BitVec.ofNat 8 k < 8 := by
    rw [BitVec.lt_def, hbit]
    exact Nat.not_lt.mpr hk
  have hsub : (BitVec.ofNat 8 k - 8).toNat = k - 8 := by
    have h8 : (8 : BitVec 8).toNat = 8 := rfl
    rw [BitVec.toNat_sub, hbit, h8]
    omega
  simp only [changeMask, if_neg hlt, hsub, inb_slave, outb_slave h.2]

/-- One call gives its line a new mask bit and leaves everything else alone. -/
theorem changeMask_spec {s : Ports} (h : Ready s)
    {change : BitVec 32 → BitVec 32 → BitVec 32} {b : Bool} (hb : GivesBit change b)
    (i : Fin 16) :
    Ready (changeMask change (BitVec.ofNat 8 i) s) ∧
      ∀ j, masked (changeMask change (BitVec.ofNat 8 i) s) j =
        if j = i then b else masked s j := by
  by_cases hi : i.val < 8
  · rw [changeMask_master h change hi]
    refine ⟨h, fun j => ?_⟩
    simp only [masked, hb _ _ _ hi]
    grind
  · rw [changeMask_slave h change (by omega) (by omega)]
    refine ⟨h, fun j => ?_⟩
    simp only [masked, hb _ _ _ (show i.val - 8 < 8 by omega)]
    grind

theorem run_spec {s : Ports} (h : Ready s) (c : Call) :
    Ready (c.run s) ∧
      ∀ j, masked (c.run s) j = if j = c.line then c.sets else masked s j := by
  cases c with
  | setMask i => exact changeMask_spec h givesBit_set i
  | clearMask i => exact changeMask_spec h givesBit_clear i

/-- The calls of a history, one after the other. -/
def runAll (calls : List Call) (s : Ports) : Ports := calls.foldl (fun s c => c.run s) s

/-- What the last call for a line made of its mask. -/
def lastCall (calls : List Call) (i : Fin 16) : Option Bool :=
  (calls.reverse.find? fun c => c.line == i).map Call.sets

@[simp] theorem lastCall_concat (calls : List Call) (c : Call) (i : Fin 16) :
    lastCall (calls ++ [c]) i = if c.line = i then some c.sets else lastCall calls i := by
  by_cases hc : c.line = i
  · simp [lastCall, hc]
  · simp [lastCall, hc]

/-- Any history of calls: the masks are those of the last calls. -/
theorem runAll_spec {s : Ports} (h : Ready s) (calls : List Call) :
    Ready (runAll calls s) ∧
      ∀ i, masked (runAll calls s) i = (lastCall calls i).getD (masked s i) := by
  induction calls using List.reverseRecOn with
  | nil => exact ⟨h, fun i => rfl⟩
  | append_singleton calls c ih =>
      have hrun : runAll (calls ++ [c]) s = c.run (runAll calls s) := by
        simp [runAll]
      have hstep := run_spec ih.1 c
      rw [hrun]
      refine ⟨hstep.1, fun i => ?_⟩
      rw [hstep.2 i, ih.2 i, lastCall_concat]
      grind

/-- From any state of the two controllers, `PIC_remap` initialises both and keeps the
masks. A line is masked afterwards exactly if the last call for it set its mask; a line
without a call has the mask it had before `PIC_remap`. -/
theorem picRemap_masks (offset1 offset2 : BitVec 32) (s : Ports) (calls : List Call) :
    let t := picRemap offset1 offset2 s
    (t.master.Initialised (offset1.setWidth 8) 4 ∧ t.master.mask = s.master.mask) ∧
      (t.slave.Initialised (offset2.setWidth 8) 2 ∧ t.slave.mask = s.slave.mask) ∧
      ∀ i, masked (runAll calls t) i = (lastCall calls i).getD (masked s i) := by
  intro t
  have ht : t = _ := picRemap_eq offset1 offset2 s
  have hmaster : t.master.Initialised (offset1.setWidth 8) 4 ∧ t.master.mask = s.master.mask := by
    rw [ht]
    exact s.master.init_spec (offset1.setWidth 8) 4 s.master.mask
  have hslave : t.slave.Initialised (offset2.setWidth 8) 2 ∧ t.slave.mask = s.slave.mask := by
    rw [ht]
    exact s.slave.init_spec (offset2.setWidth 8) 2 s.slave.mask
  refine ⟨hmaster, hslave, fun i => ?_⟩
  have hready : Ready t := ⟨hmaster.1.stage, hslave.1.stage⟩
  have hmasks : masked t i = masked s i := by
    rw [masked, masked, hmaster.2, hslave.2]
  rw [(runAll_spec hready calls).2 i, hmasks]

end Pic
end BootableKernel
